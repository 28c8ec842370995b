import TwigTemplate.Proofs.Piece.Truncate
import TwigTemplate.Proofs.Tag.Keyword
import TwigTemplate.Proofs.Tree.Derivation
import TwigTemplate.Proofs.Tree.Missing
import TwigTemplate.Proofs.Tree.Relocation

/-!
# Adding the end tags that are missing

With the missing end tags added, innermost first before each piece, a template has the same tree,
except that what was cut off is ended now.  Before each piece of the template the added end tags
end, one after the other, the constructs that the piece cuts off, so it finds the construct that it
ends innermost.
-/

namespace TwigTemplate

/-- What stands at a place of a list of pieces to which the missing end tags have been added. -/
inductive Slot
  /-- The piece that had this number. -/
  | kept (index : Nat)
  /-- An end tag that was missing. -/
  | added (ending : MissingEnd)
  deriving DecidableEq, Repr

namespace Slot

/-- The slot holds the end tag of the construct that a piece opens. -/
def ends (opener : Nat) : Slot → Bool
  | kept _ => false
  | added ending => ending.opener == opener

/-- The end tags that are added before a piece, in the order of the list. -/
def addedBefore (missing : List MissingEnd) (index : Nat) : List Slot :=
  (missing.filter (·.before = index)).map added

/-- The first pieces, each after what is added before it. -/
def first (missing : List MissingEnd) (count : Nat) : List Slot :=
  (List.range count).flatMap fun index => addedBefore missing index ++ [kept index]

/-- All pieces and all added end tags. -/
def all (missing : List MissingEnd) (count : Nat) : List Slot :=
  first missing count ++ addedBefore missing count

section Places

variable {missing : List MissingEnd} {count index : Nat}

theorem first_succ (missing : List MissingEnd) (index : Nat) :
    first missing (index + 1) =
      first missing index ++ (addedBefore missing index ++ [kept index]) := by
  rw [first, List.range_succ, List.flatMap_append, List.flatMap_singleton, ← first]

theorem first_isPrefix (missing : List MissingEnd) (reached : index ≤ count) :
    first missing index <+: first missing count := by
  obtain ⟨more, rfl⟩ := Nat.exists_eq_add_of_le reached
  rw [first, first, List.range_add, List.flatMap_append]
  exact List.prefix_append _ _

theorem exists_all_eq (missing : List MissingEnd) (before : index < count) :
    ∃ rest, all missing count =
      first missing index ++ (addedBefore missing index ++ kept index :: rest) := by
  obtain ⟨more, split⟩ := first_isPrefix missing before
  refine ⟨more ++ addedBefore missing count, ?_⟩
  rw [all, ← split, first_succ]
  simp

theorem exists_all_eq_first (missing : List MissingEnd) (reached : index ≤ count) :
    ∃ rest, all missing count = first missing index ++ (addedBefore missing index ++ rest) := by
  rcases Nat.lt_or_eq_of_le reached with before | rfl
  · obtain ⟨rest, split⟩ := exists_all_eq missing before
    exact ⟨_, split⟩
  · exact ⟨[], by rw [List.append_nil, all]⟩

theorem kept_not_mem_addedBefore (missing : List MissingEnd) (other index : Nat) :
    kept other ∉ addedBefore missing index := by
  rw [addedBefore, List.mem_map]
  rintro ⟨ending, -, same⟩
  cases same

theorem kept_not_mem_first (missing : List MissingEnd) (index : Nat) :
    kept index ∉ first missing index := by
  rw [first, List.mem_flatMap]
  rintro ⟨earlier, among, member⟩
  rcases List.mem_append.mp member with inserted | same
  · exact kept_not_mem_addedBefore missing index earlier inserted
  · obtain rfl := kept.inj (List.mem_singleton.mp same)
    exact absurd (List.mem_range.mp among) (Nat.lt_irrefl _)

/-- A piece comes after the pieces before it and what is added before them and it. -/
theorem idxOf_kept (missing : List MissingEnd) (before : index < count) :
    (all missing count).idxOf (kept index) =
      (first missing index).length + (addedBefore missing index).length := by
  obtain ⟨rest, split⟩ := exists_all_eq missing before
  rw [split, List.idxOf_append_of_notMem (kept_not_mem_first missing index),
    List.idxOf_append_of_notMem (kept_not_mem_addedBefore missing index index),
    List.idxOf_cons_self]
  rfl

/-- An added end tag comes after what is added before it at the same place. -/
theorem findIdx_added (single : (missing.map (·.opener)).Nodup) (reached : index ≤ count)
    {earlier later : List MissingEnd} {ending : MissingEnd}
    (split : missing.filter (·.before = index) = earlier ++ ending :: later) :
    (all missing count).findIdx (·.ends ending.opener) =
      (first missing index).length + earlier.length := by
  have listed : ∀ other ∈ earlier ++ ending :: later, other ∈ missing ∧ other.before = index := by
    intro other member
    rw [← split, List.mem_filter, decide_eq_true_iff] at member
    exact member
  obtain ⟨among, here⟩ := listed ending (by simp)
  have distinct : (earlier ++ ending :: later).Nodup := by
    rw [← split]
    exact single.of_map.filter _
  have unique : ∀ other ∈ missing, other.opener = ending.opener → other = ending :=
    fun other member same => List.inj_on_of_nodup_map single member among same
  -- No end tag of the construct stands earlier: not before another piece, and not twice before
  -- this one.
  have none_ends :
      ∀ slot ∈ first missing index ++ earlier.map added, slot.ends ending.opener = false := by
    intro slot member
    cases slot with
    | kept other => rfl
    | added other =>
        rw [ends, beq_eq_false_iff_ne]
        intro same
        rcases List.mem_append.mp member with inserted | repeated
        · rw [first, List.mem_flatMap] at inserted
          obtain ⟨place, before, inserted⟩ := inserted
          simp only [addedBefore, List.mem_append, List.mem_map, List.mem_filter,
            decide_eq_true_iff, added.injEq, exists_eq_right, List.mem_singleton, reduceCtorEq,
            or_false] at inserted
          obtain rfl := unique other inserted.1 same
          rw [← inserted.2, here] at before
          exact absurd (List.mem_range.mp before) (Nat.lt_irrefl _)
        · rw [List.mem_map_of_injective fun _ _ => added.inj] at repeated
          obtain rfl := unique other (listed other (List.mem_append_left _ repeated)).1 same
          exact List.disjoint_of_nodup_append distinct repeated List.mem_cons_self
  obtain ⟨rest, slots⟩ := exists_all_eq_first missing reached
  have placed : all missing count =
      (first missing index ++ earlier.map added) ++ added ending :: (later.map added ++ rest) := by
    rw [slots, addedBefore, split]
    simp
  have found : (added ending).ends ending.opener = true := beq_self_eq_true _
  rw [placed, List.findIdx_append, List.findIdx_eq_length_of_false none_ends,
    if_neg (Nat.lt_irrefl _), List.findIdx_cons, found]
  simp

end Places
end Slot

/-- Pieces have the numbers of their slots, and what lacked its end tag has the added one. -/
def Relocation.repair (slots : List Slot) : Relocation where
  start offset := offset
  stop offset := offset
  piece index := slots.idxOf (.kept index)
  ending opener endPiece :=
    match endPiece with
    | some index => some (slots.idxOf (.kept index))
    | none => some (slots.findIdx (·.ends opener))

theorem Relocation.keepsOffsets_repair (slots : List Slot) : (repair slots).KeepsOffsets :=
  ⟨fun _ => rfl, fun _ => rfl⟩

/-- A piece fits a slot: it is the piece that was kept, or a closed tag with the keyword of the end
tag that was missing. -/
inductive Fills (fixed : Source) (pieces : List Piece) (piece : Piece) : Slot → Prop
  /-- The piece had this number. -/
  | kept {index : Nat} (same : pieces[index]? = some piece) : Fills fixed pieces piece (.kept index)
  /-- The tag ends the construct. -/
  | added {ending : MissingEnd} {keyword : Excerpt} (kind : piece.kind = .region .tag)
      (closed : piece.closed = true)
      (named : (Header.ofBody fixed piece.body).keyword = some keyword)
      (ends : keyword.text = "end" ++ ending.keyword) : Fills fixed pieces piece (.added ending)

theorem Fills.closing {fixed : Source} {pieces : List Piece} {piece : Piece} {ending : MissingEnd}
    (fills : Fills fixed pieces piece (.added ending)) :
    piece.closed = true ∧ Tag.ofPiece .default fixed piece = .closing ending.keyword := by
  cases fills with
  | @added _ keyword kind closed named ends =>
      obtain ⟨text, place⟩ := keyword
      obtain rfl : text = "end" ++ ending.keyword := ends
      refine ⟨closed, ?_⟩
      rw [Tag.ofPiece_of_keyword kind named, Tag.ofKeyword_end]

theorem Fills.piece_eq {fixed : Source} {pieces : List Piece} {piece : Piece} {index : Nat}
    (fills : Fills fixed pieces piece (.kept index)) : pieces[index]? = some piece := by
  cases fills with
  | kept same => exact same

/-- What fits two lists one after the other comes in two parts. -/
theorem exists_of_forall₂_append {α β : Type} {fits : α → β → Prop} {items : List α}
    {left right : List β} (all : List.Forall₂ fits items (left ++ right)) :
    ∃ first second, items = first ++ second ∧ List.Forall₂ fits first left ∧
      List.Forall₂ fits second right :=
  ⟨_, _, (List.take_append_drop left.length items).symm, List.forall₂_take_append _ _ _ all,
    List.forall₂_drop_append _ _ _ all⟩

/-- The finding tells of a construct that is cut off. -/
def Finding.tellsOfCutOff (finding : Finding) : Bool :=
  finding.diagnostic.kind = .mismatchedEndTag || finding.diagnostic.kind = .unclosedBlock

namespace Tree

open Statement

namespace Reading

/-- The reading without the findings on constructs that are cut off. -/
def mended (reading : Reading) : Reading :=
  { reading with findings := reading.findings.filter (!·.tellsOfCutOff) }

/-- The reading when a piece has cut off constructs but done nothing else. -/
def cut (reading : Reading) (tag : Tag) : Reading :=
  { reading with stack := reading.stack.drop (reading.cutBy tag).length }.pushAll
    (nest (reading.cutBy tag) [])

variable {places : Relocation} {reading after : Reading}

theorem mended_report {finding : Finding} (other : finding.tellsOfCutOff = false)
    (reading : Reading) : (reading.report finding).mended = reading.mended.report finding := by
  simp [mended, report, other]

theorem mended_push (reading : Reading) (statement : Statement) :
    (reading.push statement).mended = reading.mended.push statement := by
  obtain ⟨root, stack, flattened, findings⟩ := reading
  cases stack <;> rfl

theorem mended_pushAll (reading : Reading) (statements : List Statement) :
    (reading.pushAll statements).mended = reading.mended.pushAll statements := by
  induction statements generalizing reading with
  | nil => rfl
  | cons statement statements ih => exact (ih _).trans (by rw [mended_push]; rfl)

theorem cutBy_append_drop (reading : Reading) (tag : Tag) :
    reading.cutBy tag ++ reading.stack.drop (reading.cutBy tag).length = reading.stack := by
  cases tag with
  | closing keyword =>
      rw [cutBy]
      split
      · exact List.prefix_iff_eq_append.mp (List.takeWhile_prefix _)
      · rfl
  | _ => rfl

theorem cut_of_nil {tag : Tag} (none : reading.cutBy tag = []) : reading.cut tag = reading := by
  rw [cut, none]
  rfl

theorem cut_of_stack {keyword : String} {inner outer : List Frame} {frame : Frame}
    (kept : keyword ∉ reading.flattened) (stacked : reading.stack = inner ++ frame :: outer)
    (same : frame.keyword = keyword) (others : ∀ other ∈ inner, other.keyword ≠ keyword) :
    reading.cut (.closing keyword) =
      { reading with stack := frame.pushAll (nest inner []) :: outer } := by
  rw [cut, cutBy_of_stack kept stacked same others, stacked, List.drop_left,
    pushAll_of_stack_cons rfl]

theorem filter_unclosed (frames : List Frame) (atEnd : Bool) :
    (frames.map (·.unclosed atEnd)).filter (!·.tellsOfCutOff) = [] := by
  rw [List.filter_eq_nil_iff, List.forall_mem_map]
  intro frame _
  simp [Finding.tellsOfCutOff, Frame.unclosed, Finding.diagnostic]

theorem filter_toldOnEnding (keyword : String) (span : Span) (frames : List Frame) :
    (toldOnEnding keyword span frames).filter (!·.tellsOfCutOff) = [] := by
  cases frames with
  | nil => rfl
  | cons innermost others => exact filter_unclosed (innermost :: others) false

/-- A branch is told of where it is not accepted. -/
theorem openBranch_of_refused {piece : Nat} {span : Span} {kind : BranchKind}
    (kept : reading.flattened = [])
    (refused : ∀ frame ∈ reading.stack.head?, frame.accepts kind = false) :
    reading.openBranch piece span kind =
      reading.report (.unexpectedBranch kind.keyword span) := by
  rw [openBranch, if_pos (List.isEmpty_iff.mpr kept)]
  cases stacked : reading.stack with
  | nil => rfl
  | cons frame frames =>
      have refuses := refused frame (by simp [stacked])
      dsimp only
      rw [refuses, if_neg Bool.false_ne_true]

section Repaired

variable (keeps : places.KeepsOffsets)
include keeps

theorem report_repaired (reading : Reading) (finding : Finding) :
    (start.behind places reading).report finding =
      start.behind places (reading.report finding) := by
  rw [← report_behind, keeps.finding_eq]

omit keeps in
theorem keywords_behind (before reading : Reading) :
    (before.behind places reading).keywords = reading.keywords := by
  simp [behind, keywords, Function.comp_def]

omit keeps in
/-- An end tag ends the innermost construct with the end piece that it is to have. -/
theorem close_innermost (places : Relocation) (base : Reading) (kept : base.flattened = [])
    {frame : Frame} {frames : List Frame} (stacked : base.stack = frame :: frames) {index : Nat}
    {endPiece : Option Nat} (ends : places.ending frame.piece endPiece = some index)
    (span : Span) :
    (start.behind places base).close index span frame.keyword =
      start.behind places ({ base with stack := frames }.push (frame.finish endPiece)) := by
  have relocated : (start.behind places base).stack =
      frame.relocate places :: frames.map (·.relocate places) := by
    rw [behind, stacked, List.map_cons]
  have closed := close_of_stack_cons (start.behind places base) index span kept relocated
  have finished : (frame.relocate places).finish (some index) =
      (frame.finish endPiece).relocate places := by
    rw [Frame.relocate_finish, ends]
  rw [Frame.keyword_relocate, finished] at closed
  rw [closed, ← push_behind]
  rfl

/-- Behind the added end tags a piece does what it does without them, but cuts nothing off. -/
theorem Acts.apply_repaired {limit : Option Nat} {index : Nat} {span : Span} {tag : Tag}
    (acts : Acts limit reading index span tag after) (kept : reading.flattened = [])
    (shallow : after.Shallow)
    (ends : ∀ opener, places.ending opener (some index) = some (places.piece index)) :
    (start.behind places (reading.cut tag).mended).apply limit (places.piece index) span tag =
      start.behind places after.mended := by
  have still := acts.flattened_eq_nil kept shallow
  cases acts with
  | @opened header room =>
      have moved := openConstruct_behind places start reading.mended limit index span
        header
      rw [keeps.span_eq, keeps.construct_eq,
        openConstruct_of_lt reading.mended index span header room] at moved
      rw [cut_of_nil rfl]
      exact moved
  | forgotten _ _ inner => exact absurd kept inner
  | tooDeep => cases still
  | @branched kind frame frames _ stacked accepted =>
      have moved := openBranch_behind places start reading.mended index span kind
      have opened : reading.mended.openBranch index span kind =
          { reading.mended with stack := frame.openBranch kind index :: frames } :=
        openBranch_of_accepts index span kept stacked accepted
      rw [keeps.span_eq, keeps.branchKind_eq, opened] at moved
      rw [cut_of_nil rfl]
      exact moved
  | ignored inner => exact absurd kept inner
  | @strayBranch kind _ refused =>
      have moved := openBranch_behind places start reading.mended index span kind
      have told : reading.mended.openBranch index span kind =
          reading.mended.report (.unexpectedBranch kind.keyword span) :=
        openBranch_of_refused kept refused
      rw [keeps.span_eq, keeps.branchKind_eq, told] at moved
      rw [cut_of_nil rfl, mended_report rfl]
      exact moved
  | recalled member => simp [kept] at member
  | @ended keyword inner outer frame forgotten stacked same others =>
      rw [cut_of_stack forgotten stacked same others]
      have none_told : (toldOnEnding keyword span inner).toArray.filter (!·.tellsOfCutOff) =
          #[] := by
        rw [List.filter_toArray, filter_toldOnEnding]
      have mended_eq : mended { reading with
          stack := outer
          flattened := []
          findings := reading.findings ++ (toldOnEnding keyword span inner).toArray } =
            { reading.mended with stack := outer } := by
        rw [mended, mended, Array.filter_append Array.size_append, none_told,
          Array.append_empty, kept]
      have ended := close_innermost places
        { reading.mended with stack := frame.pushAll (nest inner []) :: outer } kept rfl (ends _)
        span
      have keyword_eq : (frame.pushAll (nest inner [])).keyword = keyword := by
        rw [← same, Frame.keyword, Frame.header_pushAll, Frame.keyword]
      rw [keyword_eq] at ended
      rw [mended_push, mended_eq]
      exact ended
  | @strayEnd keyword forgotten missing =>
      have absent : keyword ∉ (start.behind places reading.mended).keywords := by
        rwa [keywords_behind]
      rw [cut_of_nil (by simp [cutBy, missing]), mended_report rfl, ← report_repaired keeps]
      exact close_of_not_mem _ _ _ forgotten absent
  | @single leaf =>
      have moved := push_behind places start reading.mended (.leaf index leaf)
      rw [Statement.relocate, keeps.leaf_eq] at moved
      rw [cut_of_nil rfl, mended_push]
      exact moved
  | inert => rfl
  | unknown =>
      rw [cut_of_nil rfl, mended_report rfl]
      exact report_repaired keeps _ _

/-- What is told of a region that is not closed is told in either case. -/
theorem note_repaired (reading : Reading) (piece : Piece) :
    (start.behind places reading.mended).note piece =
      start.behind places (reading.note piece).mended := by
  have kept : ∀ finding ∈ unclosed? piece, finding.tellsOfCutOff = false := by
    intro finding told
    rw [unclosed?] at told
    split at told
    · obtain rfl := Option.some.inj told
      rfl
    · cases told
  rw [note, note]
  cases told : unclosed? piece with
  | none => rfl
  | some finding =>
      rw [Option.elim_some, Option.elim_some, mended_report (kept finding told)]
      exact report_repaired keeps _ _

end Repaired

theorem report_pushAll (reading : Reading) (statements : List Statement) (finding : Finding) :
    (reading.pushAll statements).report finding = (reading.report finding).pushAll statements := by
  induction statements generalizing reading with
  | nil => rfl
  | cons statement statements ih =>
      have pushed : (reading.push statement).report finding =
          (reading.report finding).push statement := by
        obtain ⟨root, stack, flattened, findings⟩ := reading
        cases stack <;> rfl
      exact (ih _).trans (congrArg (pushAll · statements) pushed)

theorem cut_note (reading : Reading) (piece : Piece) (tag : Tag) :
    (reading.note piece).cut tag = (reading.cut tag).note piece := by
  rw [cut, cut, cutBy_note, stack_note, note, note]
  cases unclosed? piece with
  | none => rfl
  | some finding =>
      rw [Option.elim_some, Option.elim_some, report_pushAll]
      rfl

end Reading

/-! ### The repaired run -/

section Read

variable {limit : Option Nat} {fixed : Source} {places : Relocation}

/-- The added end tags end the constructs that would be cut off, one after the other. -/
theorem read_added (base : Reading) (outer : List Frame) {inner : List Frame}
    {statements : List Statement} {front added : List Piece} (kept : base.flattened = [])
    (so_far : read limit .default fixed front =
      Reading.start.behind places ({ base with stack := inner ++ outer }.pushAll statements))
    (fills : List.Forall₂ (fun piece frame => piece.closed = true ∧
      Tag.ofPiece .default fixed piece = .closing frame.keyword) added inner)
    (numbered : ∀ earlier frame later, inner = earlier ++ frame :: later →
      places.ending frame.piece none = some (front.length + earlier.length)) :
    read limit .default fixed (front ++ added) =
      Reading.start.behind places
        ({ base with stack := outer }.pushAll (Reading.nest inner statements)) := by
  induction inner generalizing statements front added with
  | nil =>
      cases fills
      rw [List.append_nil, so_far, Reading.nest, List.nil_append]
  | cons frame frames ih =>
      cases fills with
      | @cons piece _ added _ fits fills =>
          obtain ⟨closed, closing⟩ := fits
          have here : places.ending (frame.pushAll statements).piece none = some front.length := by
            rw [Frame.piece_pushAll]
            exact numbered [] frame frames rfl
          have keyword_eq : (frame.pushAll statements).keyword = frame.keyword := by
            rw [Frame.keyword, Frame.header_pushAll, Frame.keyword]
          have ended := Reading.close_innermost places
            { base with stack := frame.pushAll statements :: (frames ++ outer) } kept rfl here
            piece.span
          rw [keyword_eq] at ended
          have next : read limit .default fixed (front ++ [piece]) =
              Reading.start.behind places ({ base with stack := frames ++ outer }.pushAll
                [(frame.pushAll statements).finish none]) := by
            rw [read_append_singleton, step_eq_apply, closing, so_far, List.cons_append,
              Reading.pushAll_of_stack_cons rfl, Reading.note,
              unclosed?_eq_none_iff.mpr fun _ => closed, Option.elim_none]
            exact ended
          rw [List.append_cons]
          refine ih next fills ?_
          intro earlier other later split
          have number := numbered (frame :: earlier) other later (congrArg (frame :: ·) split)
          rw [number, List.length_append, List.length_singleton, List.length_cons]
          congr 1
          omega

end Read

section Repair

variable {limit : Option Nat} {source fixed : Source} {pieces : List Piece}
  (shallow : (ofPieces .default source pieces).Shallow)
  (keeps : ∀ piece ∈ pieces, Tag.ofPiece .default fixed piece = Tag.ofPiece .default source piece)

/-- The end tags that a list of pieces lacks. -/
def missingEnds (source : Source) (pieces : List Piece) : List MissingEnd :=
  missingAll pieces.length (ofPieces .default source pieces).statements

/-- The places of the list with the missing end tags added. -/
def slots (source : Source) (pieces : List Piece) : List Slot :=
  Slot.all (missingEnds source pieces) pieces.length

theorem nodup_missingEnds : ((missingEnds source pieces).map (·.opener)).Nodup :=
  nodup_openers _ (pairwise_piecesOf_build _ _ _ _)

omit shallow keeps in
/-- The end tags that are added at a place end the constructs that lack them. -/
theorem read_lacking {index : Nat} (reached : index ≤ pieces.length) (base : Reading)
    {inner : List Frame} (outer : List Frame) {earlier added : List Piece}
    (kept : base.flattened = [])
    (lacking : (missingEnds source pieces).filter (·.before = index) = inner.map (·.lacking index))
    (fills_earlier : List.Forall₂ (Fills fixed pieces) earlier
      (Slot.first (missingEnds source pieces) index))
    (fills_added : List.Forall₂ (Fills fixed pieces) added
      (Slot.addedBefore (missingEnds source pieces) index))
    (so_far : read limit .default fixed earlier =
      Reading.start.behind (.repair (slots source pieces))
        { base with stack := inner ++ outer }) :
    read limit .default fixed (earlier ++ added) =
      Reading.start.behind (.repair (slots source pieces))
        ({ base with stack := outer }.pushAll (Reading.nest inner [])) := by
  have closing : List.Forall₂ (fun piece frame => piece.closed = true ∧
      Tag.ofPiece .default fixed piece = .closing frame.keyword) added inner := by
    rw [Slot.addedBefore, lacking, List.map_map, List.forall₂_map_right_iff] at fills_added
    exact fills_added.imp fun _ _ fits => fits.closing
  refine read_added base outer kept so_far closing ?_
  intro first frame later parts
  have parted : (missingEnds source pieces).filter (·.before = index) =
      first.map (·.lacking index) ++ frame.lacking index :: later.map (·.lacking index) := by
    rw [lacking, parts, List.map_append, List.map_cons]
  have place := Slot.findIdx_added nodup_missingEnds reached parted
  rw [List.length_map, ← fills_earlier.length_eq] at place
  exact congrArg some place

include shallow keeps

/-- The first pieces are read, with the end tags that are missing before them, as they are read
without them, but nothing is told of what lacks an end tag. -/
theorem read_first {before after : List Piece} (split : pieces = before ++ after)
    {filled : List Piece}
    (fills : List.Forall₂ (Fills fixed pieces) filled
      (Slot.first (missingEnds source pieces) before.length)) :
    read (some nestingLimit) .default fixed filled =
      Reading.start.behind (.repair (slots source pieces))
        (read (some nestingLimit) .default source before).mended := by
  induction before using List.reverseRecOn generalizing after filled with
  | nil =>
      cases fills
      simp [Reading.behind, Reading.mended, Reading.start]
  | append_singleton before piece ih =>
      rw [List.append_assoc, List.singleton_append] at split
      rw [List.length_append, List.length_singleton, Slot.first_succ] at fills
      obtain ⟨earlier, rest, rfl, fills_earlier, fills_rest⟩ := exists_of_forall₂_append fills
      obtain ⟨added, last, rfl, fills_added, fills_last⟩ := exists_of_forall₂_append fills_rest
      have inside : before.length < pieces.length := by simp [split]
      let reading := read (some nestingLimit) .default source before
      let tag := Tag.ofPiece .default source piece
      have shallow_all : (read (some nestingLimit) .default source
          ((before ++ [piece]) ++ after)).Shallow := by
        rw [List.append_assoc, List.singleton_append, ← split]
        exact shallow_read_of_build shallow
      have shallow_after := shallow_read_of_append _ _ _ shallow_all
      have kept : reading.flattened = [] :=
        flattened_read _ _ _ (shallow_read_of_append _ _ _ shallow_after)
      -- The added end tags make the piece find the construct that it ends innermost.
      have lacking : (missingEnds source pieces).filter (·.before = before.length) =
          (reading.cutBy tag).map (·.lacking before.length) := by
        rw [missingEnds, ofPieces, split]
        exact filter_missingAll_build _ _ _ before after piece
      have so_far : read (some nestingLimit) .default fixed earlier =
          Reading.start.behind (.repair (slots source pieces))
            { reading.mended with
              stack := reading.cutBy tag ++ reading.stack.drop (reading.cutBy tag).length } := by
        rw [reading.cutBy_append_drop]
        exact ih split fills_earlier
      have cut_off : read (some nestingLimit) .default fixed (earlier ++ added) =
          Reading.start.behind (.repair (slots source pieces)) (reading.cut tag).mended := by
        rw [read_lacking (Nat.le_of_lt inside) reading.mended _ kept lacking fills_earlier
          fills_added so_far, Reading.cut, Reading.mended_pushAll]
        rfl
      -- Then the piece does what it does without them.
      cases fills_last with
      | @cons same _ _ _ fits others =>
          cases others
          have found := fits.piece_eq
          rw [split, List.getElem?_append_right (Nat.le_refl _), Nat.sub_self,
            List.getElem?_cons_zero] at found
          obtain rfl := Option.some.inj found
          have number : (earlier ++ added).length =
              (Relocation.repair (slots source pieces)).piece before.length := by
            have place := Slot.idxOf_kept (missingEnds source pieces) inside
            rw [← fills_earlier.length_eq, ← fills_added.length_eq] at place
            rw [List.length_append]
            exact place.symm
          have offsets := Relocation.keepsOffsets_repair (slots source pieces)
          have meaning := keeps piece (by simp [split])
          have acts := acts_read (some nestingLimit) .default source before piece
          rw [← List.append_assoc, read_append_singleton, step_eq_apply, cut_off,
            Reading.note_repaired offsets, ← Reading.cut_note, meaning, number]
          exact acts.apply_repaired offsets ((flattened_note _ piece).trans kept) shallow_after
            fun _ => rfl

/-- With the missing end tags added, all constructs are ended and nothing is told of what lacked an
end tag. -/
theorem ofPieces_repaired {repaired : List Piece}
    (fills : List.Forall₂ (Fills fixed pieces) repaired (slots source pieces)) :
    let tree := ofPieces .default source pieces
    let whole := ofPieces .default fixed repaired
    whole.statements = tree.statements.map (·.relocate (.repair (slots source pieces))) ∧
      whole.diagnostics = tree.diagnostics.filter fun diagnostic =>
        diagnostic.kind ≠ .mismatchedEndTag ∧ diagnostic.kind ≠ .unclosedBlock := by
  intro tree whole
  obtain ⟨earlier, added, rfl, fills_earlier, fills_added⟩ := exists_of_forall₂_append fills
  let reading := read (some nestingLimit) .default source pieces
  have kept : reading.flattened = [] := flattened_read _ _ _ (shallow_read_of_build shallow)
  have so_far : read (some nestingLimit) .default fixed earlier =
      Reading.start.behind (.repair (slots source pieces))
        { reading.mended with stack := reading.stack ++ [] } := by
    rw [List.append_nil]
    exact read_first shallow keeps (List.append_nil pieces).symm fills_earlier
  have at_end := read_lacking (Nat.le_refl _) reading.mended [] kept
    (filter_missingAll_build_end _ _ _ pieces) fills_earlier fills_added so_far
  rw [Reading.pushAll_of_stack_nil rfl] at at_end
  have offsets := Relocation.keepsOffsets_repair (slots source pieces)
  have whole_eq : whole = ⟨reading.statements.map (·.relocate (.repair (slots source pieces))),
      reading.mended.findings.toList⟩ := by
    have built : whole = (read (some nestingLimit) .default fixed (earlier ++ added)).finish := rfl
    rw [built, at_end, Reading.finish, Reading.statements]
    simp [Reading.behind, Reading.cutOff, Reading.start, offsets.finding_eq]
    rfl
  have tree_statements : tree.statements = reading.statements := statements_build _ _ _ _
  have tree_findings : tree.findings =
      reading.findings.toList ++ reading.stack.map (·.unclosed true) :=
    Reading.findings_finish _
  refine ⟨by rw [whole_eq, tree_statements], ?_⟩
  have same_test : ((fun diagnostic => decide (diagnostic.kind ≠ .mismatchedEndTag ∧
      diagnostic.kind ≠ .unclosedBlock)) ∘ Finding.diagnostic) = (!·.tellsOfCutOff) := by
    funext finding
    simp [Finding.tellsOfCutOff]
  rw [diagnostics, diagnostics, whole_eq, tree_findings, List.filter_map, same_test,
    List.filter_append, Reading.filter_unclosed, List.append_nil, Reading.mended,
    Array.toList_filter]

end Repair

/-- A loop that the end of a condition cuts off. -/
theorem ofPieces_repaired_loop :
    let source := Source.ofString "\x7b% if a %\x7d\x7b% for b in c %\x7d\x7b% endif %\x7d"
    let fixed := source ++ Source.ofString "\x7b% endfor %\x7d"
    let pieces := (Piece.group source.tokens).toList
    let ender : Piece := ⟨.region .tag, ⟨37, 49⟩, ⟨39, 47⟩, true⟩
    let repaired := pieces.take 2 ++ ender :: pieces.drop 2
    (ofPieces .default source pieces).Shallow ∧
      (∀ piece ∈ pieces, Tag.ofPiece .default fixed piece = Tag.ofPiece .default source piece) ∧
      List.Forall₂ (Fills fixed pieces) repaired (slots source pieces) ∧
      (ofPieces .default source pieces).diagnostics.map (·.kind) =
        [.mismatchedEndTag, .unclosedBlock] ∧
      (ofPieces .default fixed repaired).diagnostics = [] ∧
      (forest (ofPieces .default fixed repaired).statements).map (·.endPiece?) =
        [some 3, some 2] := by
  intro source fixed pieces ender repaired
  have shallow : (ofPieces .default source pieces).Shallow := by decide +kernel
  have keeps : ∀ piece ∈ pieces,
      Tag.ofPiece .default fixed piece = Tag.ofPiece .default source piece := by decide +kernel
  have slots_eq : slots source pieces =
      [.kept 0, .kept 1, .added ⟨2, 1, "for"⟩, .kept 2] := by decide +kernel
  have pieces_eq : pieces = [⟨.region .tag, ⟨0, 10⟩, ⟨2, 8⟩, true⟩,
      ⟨.region .tag, ⟨10, 26⟩, ⟨12, 24⟩, true⟩, ⟨.region .tag, ⟨26, 37⟩, ⟨28, 35⟩, true⟩] := by
    decide +kernel
  have fills : List.Forall₂ (Fills fixed pieces) repaired (slots source pieces) := by
    have named : (Header.ofBody fixed ender.body).keyword = some ⟨"endfor", ⟨40, 46⟩⟩ := by
      decide +kernel
    rw [slots_eq]
    simp only [repaired, pieces_eq, List.take_succ_cons, List.take_zero, List.drop_succ_cons,
      List.drop_zero, List.cons_append, List.nil_append]
    exact .cons (.kept rfl) (.cons (.kept rfl)
      (.cons (.added rfl rfl named rfl) (.cons (.kept rfl) .nil)))
  obtain ⟨statements, told⟩ := ofPieces_repaired shallow keeps fills
  refine ⟨shallow, keeps, fills, by decide +kernel, ?_, ?_⟩
  · rw [told]
    decide +kernel
  · rw [statements]
    decide +kernel

end Tree
end TwigTemplate
