import TwigTemplate.Proofs.Diagnostic.Underline
import TwigTemplate.Proofs.Tree.Text

/-!
# Reports on templates

Diagnostics begin at delimiters or names and end behind them, before the next delimiter or with the
text, so that there always is something to be underlined.  Hence a report shows the line of each
place of its diagnostic, with margins of one width.
-/

namespace TwigTemplate

namespace Source

/-- The span begins with a byte of no line ending, and it does not end inside of one. -/
structure Visible (source : Source) (span : Span) : Prop where
  /-- It begins with such a byte. -/
  first : ∃ byte ∈ source.toList[span.start]?, byte ≠ Byte.newline ∧ byte ≠ Byte.ofChar '\r'
  /-- It does not end between a carriage return and a line feed. -/
  last : source.toList[span.stop - 1]? = some (Byte.ofChar '\r') →
    source.toList[span.stop]? ≠ some Byte.newline

variable {source : Source} {span : Span}

/-- Visible parts of a text can be underlined. -/
theorem Visible.exists_underlines (visible : source.Visible span) (part : source.HasPart span)
    (filled : span.start < span.stop) :
    ∃ underlining, Underlining.Underlines source span underlining := by
  obtain ⟨front, inner, rest, split, start_eq, stop_eq, -⟩ := part.exists_texts
  have bytes : source.toList = front.toUTF8.data.toList ++
      (inner.toUTF8.data.toList ++ rest.toUTF8.data.toList) := by
    rw [toList_of_texts split]
    simp
  have at_start : source.toList[span.start]? =
      (inner.toUTF8.data.toList ++ rest.toUTF8.data.toList).head? := by
    rw [bytes, ← start_eq, ← length_toUTF8, List.getElem?_append_right (Nat.le_refl _),
      Nat.sub_self, List.head?_eq_getElem?]
  have at_stop : source.toList[span.stop]? = rest.toUTF8.data.toList.head? := by
    rw [bytes, ← List.append_assoc, ← stop_eq, ← length_toUTF8, ← length_toUTF8,
      ← List.length_append, List.getElem?_append_right (Nat.le_refl _), Nat.sub_self,
      List.head?_eq_getElem?]
  have inner_filled : inner.toList ≠ [] := by
    intro nothing
    obtain rfl : inner = "" := String.toList_inj.mp nothing
    rw [String.utf8ByteSize_empty] at stop_eq
    omega
  refine Underlining.exists_underlines_of_texts split start_eq stop_eq ?_ ?_
  · obtain ⟨byte, first, no_feed, no_return⟩ := visible.first
    obtain ⟨character, others, inner_eq⟩ := List.exists_cons_of_ne_nil inner_filled
    have begins : inner.toList.head? = some character := by
      rw [inner_eq]
      rfl
    have other {mark : Char} (ascii : mark.toNat < 128) (different : byte ≠ Byte.ofChar mark) :
        character ≠ mark := by
      rintro rfl
      rw [at_start, List.head?_append, head?_toUTF8 ascii begins] at first
      exact different (Option.some.inj first).symm
    exact ⟨character, begins, other (by decide) no_feed, other (by decide) no_return⟩
  · intro returns feeds
    refine visible.last ?_ (at_stop.trans (head?_toUTF8 (by decide) feeds))
    obtain ⟨others, inner_eq⟩ :=
      List.getLast?_eq_some_iff.mp (getLast?_toUTF8 (by decide) returns)
    have long : span.stop - 1 = (front.toUTF8.data.toList ++ others).length := by
      rw [← stop_eq, ← length_toUTF8, ← length_toUTF8, inner_eq, List.length_append,
        List.length_append, List.length_singleton, ← Nat.add_assoc, Nat.add_sub_cancel]
    rw [bytes, inner_eq, long]
    simp

theorem mem_slice {offset : Nat} {byte : UInt8} (found : source.toList[offset]? = some byte)
    (above : span.start ≤ offset) (below : offset < span.stop) : byte ∈ source.slice span := by
  rw [slice_eq_drop, List.mem_iff_getElem?]
  refine ⟨offset - span.start, ?_⟩
  rw [List.getElem?_drop, List.getElem?_take, Nat.add_sub_cancel' above, if_pos below, found]

/-- A part of the text without bytes of line endings is visible. -/
theorem visible_of_slice (part : source.HasPart span) (filled : span.start < span.stop)
    (no_feed : Byte.newline ∉ source.slice span)
    (no_return : Byte.ofChar '\r' ∉ source.slice span) : source.Visible span := by
  have inside := part.inside
  rw [size_eq_length] at inside
  have first := List.getElem?_eq_getElem (Nat.lt_of_lt_of_le filled inside)
  have member := mem_slice first (Nat.le_refl _) filled
  refine ⟨⟨_, first, ne_of_mem_of_not_mem member no_feed,
    ne_of_mem_of_not_mem member no_return⟩, ?_⟩
  intro returns
  exact absurd (mem_slice returns (by omega) (by omega)) no_return

end Source

/-- The bytes of a name are not those of other ASCII characters. -/
theorem Excerpt.IsName.not_mem {name : Excerpt} (spelled : name.IsName) {mark : Char}
    (ascii : mark.toNat < 128) (other : mark.isAlphanum = false ∧ mark ≠ '_') :
    Byte.ofChar mark ∉ name.text.toUTF8.data.toList := by
  rw [Source.ofChar_mem_toUTF8_iff ascii]
  intro member
  rcases spelled.characters mark member with letter | line | beyond
  · rw [other.1] at letter
    cases letter
  · exact other.2 line
  · exact Nat.not_lt_of_le beyond ascii

theorem Piece.getElem?_start {source : Source} {piece : Piece} {delimiter : Delimiter}
    (member : piece ∈ group source.tokens) (kind : piece.kind = .region delimiter) :
    source.toList[piece.span.start]? = some Byte.leftBrace ∧
      source.toList[piece.span.start + 1]? = some delimiter.openMark := by
  obtain ⟨front, rest, split, long⟩ := exists_openBytes member kind
  rw [split, ← long, Delimiter.openBytes_eq]
  simp

namespace Tree

variable {options : Options} {source : Source} {piece : Piece} {span : Span}

/-- Places of diagnostics are visible. -/
theorem Spot.visible (spot : Spot options source piece span)
    (member : piece ∈ Piece.group source.tokens) : source.Visible span := by
  cases spot with
  | tag kind =>
      refine ⟨⟨_, (Piece.getElem?_start member kind).1, by decide, by decide⟩, ?_⟩
      intro returns feeds
      rcases Piece.stop_of_mem_group member with closes | opens | nothing
      · rw [closes] at returns
        exact absurd returns (by decide)
      · rw [opens] at feeds
        exact absurd feeds (by decide)
      · rw [nothing] at feeds
        cases feeds
  | delimiter unclosed =>
      obtain ⟨delimiter, kind, span_eq⟩ := delimiterSpan_of_isUnclosed member unclosed
      obtain ⟨first, second⟩ := Piece.getElem?_start member kind
      rw [span_eq]
      refine ⟨⟨_, first, by decide, by decide⟩, ?_⟩
      intro returns
      rw [Nat.add_sub_assoc (by decide), second] at returns
      cases delimiter <;> exact absurd returns (by decide)
  | @keyword keyword unknown =>
      have written := Tag.writtenIn_ofPiece options member
      rw [unknown] at written
      obtain ⟨-, copied, spelled⟩ := written.names keyword (List.mem_singleton_self _)
      refine Source.visible_of_slice copied.part copied.filled ?_ ?_
      · rw [← copied.copied]
        exact spelled.not_mem (by decide) (by decide)
      · rw [← copied.copied]
        exact spelled.not_mem (by decide) (by decide)

end Tree

namespace Diagnostic

open Underlining

/-- A report without colors, from what is underlined. -/
def layout (diagnostic : Diagnostic) (fileName : String) (width : Nat) (here : Underlining)
    (related : Option Underlining) : String :=
  String.join
    ["\n", s!" file: {fileName}:{here.number + 1}:{here.left.length + 1}\n",
      s!"warning: {diagnostic.message}\n", gutter width "" ++ "\n", here.lines width none,
      related.elim "" (·.lines width (some (diagnostic.relatedLabel.getD "opened here"))),
      diagnostic.help.elim "" (fun help => "\n" ++ helpLines .plain help), "\n"]

variable {source : Source} {diagnostic : Diagnostic}

/-- A report shows what is underlined, and nothing else of the text. -/
theorem report_eq_layout (fileName : String) {here : Underlining} {related : Option Underlining}
    (part : source.HasPart diagnostic.span)
    (parts : ∀ span ∈ diagnostic.relatedSpan, source.HasPart span)
    (underlines : Underlines source diagnostic.span here)
    (others : Option.Rel (Underlines source) diagnostic.relatedSpan related) :
    report .plain source fileName diagnostic =
      diagnostic.layout fileName (diagnostic.marginWidth (.ofSource source)) here related := by
  obtain ⟨before, ending, after, marks⟩ := underlines
  simp only [report, marks.positionAt_start, marks.underlinedLine_eq part, layout, margin_plain,
    blank]
  generalize diagnostic.marginWidth (.ofSource source) = width
  generalize diagnostic.relatedSpan = spans at parts others ⊢
  cases others with
  | none => cases diagnostic.help <;> simp [Palette.plain, toString, String.append_assoc]
  | some underlines =>
      obtain ⟨_, _, _, marks⟩ := underlines
      simp only [marks.underlinedLine_eq (parts _ rfl)]
      cases diagnostic.help <;> simp [Palette.plain, toString, String.append_assoc]

/-- Line numbers fit into the margins. -/
theorem length_le_marginWidth {span : Span} {underlining : Underlining}
    (member : span ∈ diagnostic.span :: diagnostic.relatedSpan.toList) (part : source.HasPart span)
    (underlines : Underlines source span underlining) :
    (toString (underlining.number + 1)).length ≤ diagnostic.marginWidth (.ofSource source) := by
  obtain ⟨before, ending, after, marks⟩ := underlines
  have start_le : span.start ≤
      max diagnostic.span.start ((diagnostic.relatedSpan.map (·.start)).getD 0) := by
    rcases List.mem_cons.mp member with rfl | related
    · exact Nat.le_max_left _ _
    · rw [Option.mem_toList.mp related]
      exact Nat.le_max_right _ _
  rw [marginWidth, LineTable.lineAt_ofSource, marks.number_eq part]
  exact Nat.le_trans (length_toString_le (Nat.succ_le_succ (Source.lineOf_le start_le)))
    (Nat.le_max_left _ _)

end Diagnostic

namespace Document

open Diagnostic Underlining

/-- The report on a diagnostic of a template tells where its span starts, shows the line of each of
its places, and underlines the part of the place on this line, beside margins of one width. -/
theorem report_points_at_places (options : Options) (source : Source) (fileName : String) :
    ∀ diagnostic ∈ (parse options source).diagnostics, ∃ width here related,
      Underlines source diagnostic.span here ∧
      Option.Rel (Underlines source) diagnostic.relatedSpan related ∧
      (∀ underlining ∈ here :: related.toList,
        (gutter width (toString (underlining.number + 1))).length = (gutter width "").length) ∧
      report .plain source fileName diagnostic =
        diagnostic.layout fileName width here related := by
  intro diagnostic member
  have placed : ∀ span ∈ diagnostic.span :: diagnostic.relatedSpan.toList,
      source.HasPart span ∧ ∃ underlining, Underlines source span underlining := by
    intro span among
    obtain ⟨piece, listed, spot⟩ :=
      Tree.exists_spot_of_mem_diagnostics _ options source member span among
    have grouped := Array.mem_toList_iff.mp listed
    obtain ⟨part, filled⟩ := spot.hasPart grouped
    exact ⟨part, (spot.visible grouped).exists_underlines part filled⟩
  obtain ⟨part, here, underlines⟩ := placed diagnostic.span List.mem_cons_self
  have further : ∀ span ∈ diagnostic.relatedSpan, span ∈ diagnostic.span ::
      diagnostic.relatedSpan.toList :=
    fun span found => List.mem_cons_of_mem _ (Option.mem_toList.mpr found)
  obtain ⟨related, others, of_related⟩ :
      ∃ related, Option.Rel (Underlines source) diagnostic.relatedSpan related ∧
        ∀ underlining ∈ related.toList, ∃ span ∈ diagnostic.relatedSpan,
          Underlines source span underlining := by
    cases spans : diagnostic.relatedSpan with
    | none => exact ⟨none, .none, by simp⟩
    | some span =>
        obtain ⟨-, underlining, underlines⟩ := placed span (further span spans)
        exact ⟨some underlining, .some underlines,
          List.forall_mem_singleton.mpr ⟨span, rfl, underlines⟩⟩
  refine ⟨_, here, related, underlines, others, ?_,
    report_eq_layout fileName part (fun span found => (placed span (further span found)).1)
      underlines others⟩
  have wide {span : Span} {underlining : Underlining}
      (member : span ∈ diagnostic.span :: diagnostic.relatedSpan.toList)
      (underlines : Underlines source span underlining) :
      (gutter (diagnostic.marginWidth (.ofSource source))
        (toString (underlining.number + 1))).length =
      (gutter (diagnostic.marginWidth (.ofSource source)) "").length := by
    rw [length_gutter (length_le_marginWidth member (placed span member).1 underlines),
      length_gutter (Nat.zero_le _)]
  refine List.forall_mem_cons.mpr ⟨wide List.mem_cons_self underlines, ?_⟩
  intro underlining among
  obtain ⟨span, found, underlines⟩ := of_related underlining among
  exact wide (further span found) underlines

/-- An end tag that cuts off a loop on an earlier line. -/
theorem report_points_at_places_of_loop :
    let source := Source.ofString
      "é\x7b% if a %\x7d\r\n \x7b% for b in c %\x7d\r\n\x7b% endif %\x7d"
    let text :=
      "\n file: page:3:1\nwarning: `endif` closes `if` while `for` is still open\n   |\n" ++
      " 3 | \x7b% endif %\x7d\n   | ^^^^^^^^^^^\n" ++
      " 2 |  \x7b% for b in c %\x7d\n   |  ^^^^^^^^^^^^^^^^ `for` opened here\n" ++
      "\n help: add `\x7b% endfor %\x7d` before this tag\n\n"
    ∃ diagnostic ∈ (parse .default source).diagnostics,
      diagnostic.span = ⟨33, 44⟩ ∧ diagnostic.relatedSpan = some ⟨15, 31⟩ ∧
      report .plain source "page" diagnostic = text ∧
      ∃ width here related, Underlines source ⟨33, 44⟩ here ∧
        Option.Rel (Underlines source) (some ⟨15, 31⟩) related ∧
        report .plain source "page" diagnostic =
          diagnostic.layout "page" width here related := by
  intro source text
  have shown : (parse .default source).diagnostics.head?.map (fun diagnostic =>
      (diagnostic.span, diagnostic.relatedSpan, report .plain source "page" diagnostic)) =
      some (⟨33, 44⟩, some ⟨15, 31⟩, text) := by
    decide +kernel
  obtain ⟨diagnostic, first, parts⟩ := Option.map_eq_some_iff.mp shown
  obtain ⟨span_eq, others⟩ := Prod.mk.inj parts
  obtain ⟨related_eq, report_eq⟩ := Prod.mk.inj others
  have member := List.mem_of_head? first
  obtain ⟨width, here, related, underlines, relates, -, layout_eq⟩ :=
    report_points_at_places .default source "page" diagnostic member
  rw [span_eq] at underlines
  rw [related_eq] at relates
  exact ⟨diagnostic, member, span_eq, related_eq, report_eq, width, here, related, underlines,
    relates, layout_eq⟩

end Document

end TwigTemplate
