import TwigTemplate.Proofs.Token.Spelling

/-!
# Where regions end

A region is read from the end of its opening delimiter on.  Its ending is the first thing that may
end it, and where that stands does not depend on how tokens are cut: in a comment only its closing
delimiter counts; in code closed literals are skipped, and an expression counts braces.
-/

namespace TwigTemplate

open Lexeme

/-! ### Code -/

namespace Code

/-- One item of code, with the depth before it and after it.  Only expressions count braces, and no
depth is below zero. -/
inductive Item (delimiter : Delimiter) : Nat → List UInt8 → Nat → Prop
  /-- An opening brace. -/
  | leftBrace (depth : Nat) (counts : delimiter = .expression) :
      Item delimiter depth [Byte.leftBrace] (depth + 1)
  /-- A closing brace. -/
  | rightBrace (depth : Nat) (counts : delimiter = .expression) :
      Item delimiter depth [Byte.rightBrace] (depth - 1)
  /-- Any other byte outside literals. -/
  | byte (depth : Nat) {byte : UInt8} (unquoted : Byte.isQuote byte = false)
      (uncounted : delimiter = .expression → byte ≠ Byte.leftBrace ∧ byte ≠ Byte.rightBrace) :
      Item delimiter depth [byte] depth
  /-- A closed literal. -/
  | literal (depth : Nat) {quote : UInt8} {inside : List UInt8}
      (quotes : Byte.isQuote quote = true) (within : Literal.Inside quote inside) :
      Item delimiter depth (quote :: (inside ++ [quote])) depth

/-- Items of code that follow each other, with the depth before them and after them.  Only where
such a part of the content ends, there is a code position. -/
inductive Passes (delimiter : Delimiter) : Nat → List UInt8 → Nat → Prop
  /-- No items. -/
  | nil (depth : Nat) : Passes delimiter depth [] depth
  /-- An item and those after it. -/
  | cons {depth middle later : Nat} {item part : List UInt8}
      (first : Item delimiter depth item middle) (further : Passes delimiter middle part later) :
      Passes delimiter depth (item ++ part) later

variable {delimiter : Delimiter} {depth later : Nat} {item part : List UInt8}

theorem item_of_unquoted (delimiter : Delimiter) (depth : Nat) {byte : UInt8}
    (unquoted : Byte.isQuote byte = false) :
    Item delimiter depth [byte] (depthAfter delimiter depth byte) := by
  rw [depthAfter]
  split
  · rename_i counts
    split
    · rename_i is_left
      rw [beq_iff_eq.mp is_left]
      exact .leftBrace depth counts
    split
    · rename_i is_right
      rw [beq_iff_eq.mp is_right]
      exact .rightBrace depth counts
    · rename_i no_left no_right
      rw [beq_iff_eq] at no_left no_right
      exact .byte depth unquoted fun _ => ⟨no_left, no_right⟩
  · rename_i uncounted
    exact .byte depth unquoted (absurd · uncounted)

/-- An item is a byte or a literal, and the depth after it is told by the depth before it. -/
theorem Item.cases (first : Item delimiter depth item later) :
    (∃ byte, Byte.isQuote byte = false ∧ item = [byte] ∧
      later = depthAfter delimiter depth byte) ∨
    ∃ quote inside, Byte.isQuote quote = true ∧ Literal.Inside quote inside ∧
      item = quote :: (inside ++ [quote]) ∧ later = depth := by
  cases first with
  | leftBrace counts => exact .inl ⟨_, by decide, rfl, by simp [depthAfter, counts]⟩
  | rightBrace counts =>
      have other : (Byte.rightBrace == Byte.leftBrace) = false := by decide
      exact .inl ⟨_, by decide, rfl, by simp [depthAfter, counts, other]⟩
  | byte unquoted uncounted =>
      refine .inl ⟨_, unquoted, rfl, ?_⟩
      rw [depthAfter]
      split
      · rename_i counts
        simp [uncounted counts]
      · rfl
  | literal quotes within => exact .inr ⟨_, _, quotes, within, rfl, rfl⟩

/-- What stands in the text tells the item. -/
theorem Item.unique {item' rest rest' : List UInt8} {later' : Nat}
    (first : Item delimiter depth item later) (second : Item delimiter depth item' later')
    (same : item ++ rest = item' ++ rest') : item = item' ∧ later = later' ∧ rest = rest' := by
  rcases first.cases with ⟨byte, unquoted, rfl, rfl⟩ | ⟨quote, inside, quotes, within, rfl, rfl⟩
  · rcases second.cases with ⟨byte', -, rfl, rfl⟩ | ⟨quote, inside, quotes, -, rfl, -⟩
    · obtain ⟨rfl, rfl⟩ := List.cons.inj same
      exact ⟨rfl, rfl, rfl⟩
    · obtain ⟨rfl, -⟩ := List.cons.inj same
      rw [unquoted] at quotes
      cases quotes
  · rcases second.cases with ⟨byte, unquoted, rfl, -⟩ | ⟨quote', inside', -, within', rfl, rfl⟩
    · obtain ⟨rfl, -⟩ := List.cons.inj same
      rw [unquoted] at quotes
      cases quotes
    · simp only [List.cons_append, List.cons.injEq, List.append_assoc, List.nil_append] at same
      obtain ⟨rfl, same⟩ := same
      obtain ⟨rfl, rfl⟩ := within.unique within' quotes same
      exact ⟨rfl, rfl, rfl⟩

theorem Item.ne_nil (first : Item delimiter depth item later) : item ≠ [] := by
  rcases first.cases with ⟨byte, -, rfl, -⟩ | ⟨quote, inside, -, -, rfl, -⟩
  · exact List.cons_ne_nil _ _
  · exact List.cons_ne_nil _ _

theorem Passes.unique {later' : Nat} (passes : Passes delimiter depth part later)
    (others : Passes delimiter depth part later') : later = later' := by
  generalize same : part = part' at others
  induction passes generalizing part' with
  | nil depth =>
      cases others with
      | nil => rfl
      | cons first => exact absurd (List.append_eq_nil_iff.mp same.symm).1 first.ne_nil
  | cons first further ih =>
      cases others with
      | nil => exact absurd (List.append_eq_nil_iff.mp same).1 first.ne_nil
      | cons first' further' =>
          obtain ⟨rfl, rfl, rfl⟩ := first.unique first' same
          exact ih _ rfl further'

end Code

/-! ### Endings -/

/-- How a region ends. -/
inductive Ending
  /-- By its closing delimiter, after a trim mark or none. -/
  | closed (mark : List UInt8)
  /-- By an opening delimiter of another kind. -/
  | interrupted (other : Delimiter)
  /-- By a literal that is never closed, which takes the rest of the text. -/
  | unterminated
  /-- Only with the text. -/
  | unended
  deriving DecidableEq, Repr

namespace Ending

/-- What ends code below so many open braces stands at the head of the rest of the text. -/
def StandsAt (delimiter : Delimiter) (depth : Nat) (rest : List UInt8) : Ending → Prop
  | closed mark => depth = 0 ∧ TrimMark mark ∧ mark ++ delimiter.closeBytes <+: rest
  | interrupted other => other ≠ delimiter ∧ other.openBytes <+: rest
  | unterminated =>
    ∃ quote tail, rest = quote :: tail ∧ Byte.isQuote quote = true ∧ ¬ Literal.Closed quote tail
  | unended => rest = []

variable {delimiter : Delimiter} {depth : Nat} {rest : List UInt8} {ending other : Ending}

/-- What the first byte of the rest is where such an ending stands. -/
def Heads (first : Option UInt8) : Ending → Prop
  | closed _ => ∃ byte, first = some byte ∧ Byte.isQuote byte = false ∧ byte ≠ Byte.leftBrace
  | interrupted _ => first = some Byte.leftBrace
  | unterminated => ∃ byte, first = some byte ∧ Byte.isQuote byte = true
  | unended => first = none

/-- The first byte tells the kinds of endings apart. -/
theorem StandsAt.heads (stands : ending.StandsAt delimiter depth rest) :
    ending.Heads rest.head? := by
  cases ending with
  | closed mark =>
      have closes : delimiter.startsClose rest = true :=
        Delimiter.startsClose_iff.mpr ⟨mark, stands.2⟩
      cases rest with
      | nil => cases closes
      | cons byte tail =>
          refine ⟨byte, rfl, not_isQuote_of_startsClose closes, ?_⟩
          rintro rfl
          rw [Delimiter.startsClose, Bool.or_eq_true, Bool.and_eq_true,
            Delimiter.startsBareClose_iff, Delimiter.closeBytes_eq] at closes
          rcases closes with bare | ⟨marked, -⟩
          · have same : delimiter.closeMark = Byte.leftBrace := (List.cons_prefix_cons.mp bare).1
            cases delimiter <;> cases same
          · cases marked
  | interrupted other =>
      obtain ⟨-, later, rfl⟩ := stands
      rw [Delimiter.openBytes_eq]
      rfl
  | unterminated =>
      obtain ⟨quote, tail, rfl, quotes, -⟩ := stands
      exact ⟨quote, rfl, quotes⟩
  | unended =>
      obtain rfl : rest = [] := stands
      rfl

theorem trimMark_unique {mark mark' : List UInt8} (trim : TrimMark mark) (trim' : TrimMark mark')
    (closes : mark ++ delimiter.closeBytes <+: rest)
    (closes' : mark' ++ delimiter.closeBytes <+: rest) : mark = mark' := by
  obtain ⟨later, rfl⟩ := closes
  obtain ⟨later', same⟩ := closes'
  rw [List.append_assoc, List.append_assoc] at same
  have unmarked (more : List UInt8) :
      (delimiter.closeBytes ++ more).head?.any Byte.isTrimMark = false := by
    rw [Delimiter.closeBytes_eq]
    exact delimiter.isTrimMark_closeMark
  have bare := congrArg dropTrimMark same
  rw [dropTrimMark_append trim' (unmarked _), dropTrimMark_append trim (unmarked _)] at bare
  rw [bare] at same
  exact (List.append_cancel_right same).symm

/-- Only one ending stands at a place. -/
theorem StandsAt.unique (stands : ending.StandsAt delimiter depth rest)
    (others : other.StandsAt delimiter depth rest) : ending = other := by
  have brace : Byte.isQuote Byte.leftBrace = false := by decide
  have first := stands.heads
  have second := others.heads
  cases ending with
  | closed mark =>
      cases other with
      | closed mark' =>
          rw [trimMark_unique stands.2.1 others.2.1 stands.2.2 others.2.2]
      | interrupted | unterminated | unended => grind [Heads]
  | interrupted kind =>
      cases other with
      | interrupted kind' =>
          have opens := Delimiter.opener?_eq_some_iff.mpr stands.2
          rw [Delimiter.opener?_eq_some_iff.mpr others.2] at opens
          rw [Option.some.inj opens]
      | closed | unterminated | unended => grind [Heads]
  | unterminated =>
      cases other with
      | unterminated => rfl
      | closed | interrupted | unended => grind [Heads]
  | unended =>
      cases other with
      | unended => rfl
      | closed | interrupted | unterminated => grind [Heads]

end Ending

/-! ### The first ending in code -/

/-- Code ends after a part of the content that is read as code: the ending stands there, and none
stands at a code position before it. -/
structure EndsCode (delimiter : Delimiter) (depth : Nat) (content part : List UInt8)
    (ending : Ending) : Prop where
  /-- The ending stands there. -/
  stands : ∃ rest later, content = part ++ rest ∧ Code.Passes delimiter depth part later ∧
    ending.StandsAt delimiter later rest
  /-- Nothing ends the code before. -/
  first : ∀ earlier rest later other, content = earlier ++ rest → earlier.length < part.length →
    Code.Passes delimiter depth earlier later → ¬ Ending.StandsAt delimiter later rest other

namespace EndsCode

variable {delimiter : Delimiter} {depth middle : Nat} {content part item rest : List UInt8}
  {ending : Ending}

theorem here (stands : ending.StandsAt delimiter depth content) :
    EndsCode delimiter depth content [] ending :=
  ⟨⟨content, depth, rfl, .nil depth, stands⟩, fun _ _ _ _ _ shorter => absurd shorter (by simp)⟩

/-- Code that goes on after an item ends where the code after the item does. -/
theorem of_item (first : Code.Item delimiter depth item middle)
    (free : ∀ other, ¬ Ending.StandsAt delimiter depth (item ++ rest) other)
    (further : EndsCode delimiter middle rest part ending) :
    EndsCode delimiter depth (item ++ rest) (item ++ part) ending := by
  obtain ⟨⟨after, later, rfl, passes, stands⟩, before⟩ := further
  refine ⟨⟨after, later, by rw [List.append_assoc], .cons first passes, stands⟩, ?_⟩
  intro earlier behind depth' other split shorter passes'
  cases passes' with
  | nil =>
      rw [List.nil_append] at split
      exact split ▸ free other
  | @cons _ middle' _ item' earlier' first' further' =>
      rw [List.append_assoc item'] at split
      obtain ⟨rfl, rfl, split⟩ := first.unique first' split
      refine before earlier' behind depth' other split ?_ further'
      simpa using shorter

/-- There is one first ending. -/
theorem unique {part' : List UInt8} {ending' : Ending}
    (one : EndsCode delimiter depth content part ending)
    (other : EndsCode delimiter depth content part' ending') :
    part' = part ∧ ending' = ending := by
  obtain ⟨rest, later, rfl, passes, stands⟩ := one.stands
  obtain ⟨rest', later', split, passes', stands'⟩ := other.stands
  have long : part.length = part'.length := by
    rcases Nat.lt_trichotomy part.length part'.length with shorter | same | longer
    · exact absurd stands (other.first part rest later ending rfl shorter passes)
    · exact same
    · exact absurd stands' (one.first part' rest' later' ending' split longer passes')
  obtain ⟨rfl, rfl⟩ := List.append_inj split long
  obtain rfl := passes.unique passes'
  exact ⟨rfl, stands'.unique stands⟩

end EndsCode

/-! ### The end of a comment -/

/-- A comment ends after a part of the content: with its first closing delimiter, of which a trim
mark right before it is a part, or with the text. -/
inductive EndsComment : List UInt8 → List UInt8 → Ending → Prop
  /-- The comment is closed. -/
  | closed {part mark rest : List UInt8} (trim : TrimMark mark)
      (first : ∀ earlier later,
        part ++ (mark ++ (Delimiter.comment.closeBytes ++ rest)) =
          earlier ++ (Delimiter.comment.closeBytes ++ later) →
        (part ++ mark).length ≤ earlier.length)
      (whole : mark = [] → ∀ front byte, part = front ++ [byte] → Byte.isTrimMark byte = false) :
      EndsComment (part ++ (mark ++ (Delimiter.comment.closeBytes ++ rest))) part (.closed mark)
  /-- The comment goes on to the end. -/
  | unended {content : List UInt8}
      (unclosed : ∀ earlier later,
        content ≠ earlier ++ (Delimiter.comment.closeBytes ++ later)) :
      EndsComment content content .unended

section Comment

variable {run rest : List UInt8}

/-- No closing delimiter, with its trim mark or without, starts in the run. -/
def Unclosed (run rest : List UInt8) : Prop :=
  ∀ earlier later, run = earlier ++ later → later ≠ [] →
    Delimiter.comment.startsClose (later ++ rest) = false

theorem Unclosed.exists_more {earlier behind : List UInt8} (unclosed : Unclosed run rest)
    (split : run ++ rest = earlier ++ (Delimiter.comment.closeBytes ++ behind)) :
    ∃ more, earlier = run ++ more ∧ rest = more ++ (Delimiter.comment.closeBytes ++ behind) := by
  rcases List.append_eq_append_iff.mp split with found | ⟨more, run_eq, close_eq⟩
  · exact found
  · have closes : Delimiter.comment.startsClose (more ++ rest) = true :=
      Delimiter.startsClose_iff.mpr ⟨[], .inl rfl, behind, close_eq⟩
    by_cases filled : more = []
    · subst filled
      rw [List.append_nil] at run_eq
      exact ⟨[], by rw [run_eq, List.append_nil], close_eq.symm⟩
    · rw [unclosed earlier more run_eq filled] at closes
      cases closes

/-- A comment ends where its closing delimiter is first seen, perhaps by its trim mark. -/
theorem EndsComment.of_closed {mark : List UInt8} (unclosed : Unclosed run rest)
    (trim : TrimMark mark) (closes : mark ++ Delimiter.comment.closeBytes <+: rest) :
    EndsComment (run ++ rest) run (.closed mark) := by
  obtain ⟨after, rfl⟩ := closes
  rw [List.append_assoc mark] at unclosed ⊢
  refine .closed trim ?_ ?_
  · intro earlier behind split
    obtain ⟨more, rfl, same⟩ := unclosed.exists_more split
    rw [List.length_append, List.length_append, Nat.add_le_add_iff_left]
    rcases trim with rfl | ⟨byte, marked, rfl⟩
    · exact Nat.zero_le _
    · -- The closing delimiter does not start with the trim mark.
      refine List.length_pos_iff.mpr ?_
      rintro rfl
      rw [Delimiter.closeBytes_eq] at same
      obtain ⟨rfl, -⟩ := List.cons.inj same
      rw [Delimiter.isTrimMark_closeMark] at marked
      cases marked
  · rintro rfl front byte rfl
    rw [Bool.eq_false_iff]
    intro marked
    have closes : Delimiter.comment.startsClose
        ([byte] ++ ([] ++ (Delimiter.comment.closeBytes ++ after))) = true :=
      Delimiter.startsClose_iff.mpr ⟨[byte], .inr ⟨byte, marked, rfl⟩, after, rfl⟩
    rw [unclosed front [byte] rfl (List.cons_ne_nil _ _)] at closes
    cases closes

/-- A comment whose closing delimiter is not seen goes on to the end. -/
theorem EndsComment.of_unclosed (unclosed : Unclosed run []) : EndsComment run run .unended := by
  refine .unended ?_
  intro earlier later split
  rw [← List.append_nil run] at split
  obtain ⟨more, -, nothing⟩ := unclosed.exists_more split
  simp [Delimiter.closeBytes_eq] at nothing

end Comment

/-- There is one ending. -/
theorem EndsComment.unique {content part part' : List UInt8} {ending ending' : Ending}
    (one : EndsComment content part ending) (other : EndsComment content part' ending') :
    part' = part ∧ ending' = ending := by
  cases one with
  | @closed _ mark rest trim first whole =>
      generalize split : part ++ (mark ++ (Delimiter.comment.closeBytes ++ rest)) = content at other
      cases other with
      | unended unclosed =>
          rw [← List.append_assoc] at split
          exact absurd split.symm (unclosed _ _)
      | @closed _ mark' rest' trim' first' whole' =>
          have long : (part ++ mark).length = (part' ++ mark').length := by
            apply Nat.le_antisymm
            · exact first (part' ++ mark') rest' (by rw [split, List.append_assoc])
            · exact first' (part ++ mark) rest (by rw [← split, List.append_assoc])
          rw [← List.append_assoc, ← List.append_assoc part'] at split
          have same : part ++ mark = part' ++ mark' := (List.append_inj split long).1
          rcases trim with rfl | ⟨byte, marked, rfl⟩
          · rcases trim' with rfl | ⟨byte', marked', rfl⟩
            · rw [List.append_nil, List.append_nil] at same
              exact ⟨same.symm, rfl⟩
            · rw [List.append_nil] at same
              rw [whole rfl _ _ same] at marked'
              cases marked'
          · rcases trim' with rfl | ⟨byte', marked', rfl⟩
            · rw [List.append_nil] at same
              rw [whole' rfl _ _ same.symm] at marked
              cases marked
            · obtain ⟨rfl, last⟩ := List.append_inj' same rfl
              exact ⟨rfl, by rw [last]⟩
  | unended unclosed =>
      cases other with
      | @closed _ mark' rest' trim' first' whole' =>
          exact absurd (List.append_assoc part' mark' _).symm (unclosed _ _)
      | unended => exact ⟨rfl, rfl⟩

/-- A region ends after a part of what follows its opening delimiter. -/
def EndsRegion (content part : List UInt8) (ending : Ending) : Delimiter → Prop
  | .comment => EndsComment content part ending
  | .tag => EndsCode .tag 0 content part ending
  | .expression => EndsCode .expression 0 content part ending

theorem EndsRegion.unique {delimiter : Delimiter} {content part part' : List UInt8}
    {ending ending' : Ending} (one : EndsRegion content part ending delimiter)
    (other : EndsRegion content part' ending' delimiter) : part' = part ∧ ending' = ending := by
  cases delimiter with
  | comment => exact EndsComment.unique one other
  | tag => exact EndsCode.unique one other
  | expression => exact EndsCode.unique one other

end TwigTemplate
