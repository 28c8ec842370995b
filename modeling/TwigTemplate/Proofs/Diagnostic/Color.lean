import TwigTemplate.Proofs.Diagnostic.Escape
import TwigTemplate.Proofs.Tree.Wording

/-!
# Colored reports

A report with colors is the report without them, with escape sequences added to it.  What
diagnostics quote stands between backticks, so these come in pairs.
-/

namespace TwigTemplate

/-! ### Prose -/

/-- Prose in which code can be set off: its backticks come in pairs. -/
structure Prose (text : String) : Prop where
  /-- No character begins an escape sequence. -/
  uncolored : Uncolored text
  /-- Each backtick has its partner. -/
  paired : text.toList.count '\x60' % 2 = 0

theorem Prose.colors {text : String} (prose : Prose text) :
    Colors text (Palette.setOffCode text) :=
  Palette.colors_setOffCode prose.uncolored prose.paired

/-- A part of a line of prose with so many backticks. -/
structure Phrase (backticks : Nat) (text : String) : Prop where
  /-- No character begins an escape sequence. -/
  uncolored : '\x1b' ∉ text.toList
  /-- The line goes on. -/
  single : '\n' ∉ text.toList
  /-- The backticks in it. -/
  count_eq : text.toList.count '\x60' = backticks

instance (backticks : Nat) (text : String) : Decidable (Phrase backticks text) :=
  decidable_of_iff
    ('\x1b' ∉ text.toList ∧ '\n' ∉ text.toList ∧ text.toList.count '\x60' = backticks)
    ⟨fun ⟨uncolored, single, count_eq⟩ => ⟨uncolored, single, count_eq⟩,
      fun phrase => ⟨phrase.uncolored, phrase.single, phrase.count_eq⟩⟩

namespace Phrase

variable {first second : Nat} {left middle right text : String}

theorem append (phrase : Phrase first left) (further : Phrase second right) :
    Phrase (first + second) (left ++ right) := by
  constructor
  · simp [phrase.uncolored, further.uncolored]
  · simp [phrase.single, further.single]
  · rw [String.toList_append, List.count_append, phrase.count_eq, further.count_eq]

/-- A phrase without backticks between two others. -/
theorem around (before : Phrase first left) (inner : Phrase 0 middle)
    (after : Phrase second right) : Phrase (first + second) (left ++ middle ++ right) :=
  (before.append inner).append after

theorem prose (phrase : Phrase first text) (even : first % 2 = 0) : Prose text :=
  ⟨phrase.uncolored, phrase.count_eq ▸ even⟩

/-- A phrase is a single line, or none. -/
theorem prose_of_mem_linesOf (phrase : Phrase first text) (even : first % 2 = 0) :
    ∀ line ∈ linesOf text, Prose line := by
  intro line member
  rw [eq_of_mem_linesOf phrase.single member]
  exact phrase.prose even

/-- Names are phrases. -/
theorem of_name (spelled : ∀ character ∈ text.toList,
    character.isAlphanum = true ∨ character = '_' ∨ 0x80 ≤ character.toNat) : Phrase 0 text := by
  have absent {mark : Char}
      (other : mark.isAlphanum = false ∧ mark ≠ '_' ∧ mark.toNat < 0x80) : mark ∉ text.toList := by
    intro member
    rcases spelled mark member with letter | line | beyond
    · rw [other.1] at letter
      cases letter
    · exact other.2.1 line
    · exact Nat.not_lt_of_le beyond other.2.2
  exact ⟨absent (by decide), absent (by decide), List.count_eq_zero.mpr (absent (by decide))⟩

theorem of_number (number : Nat) : Phrase 0 number.repr := by
  refine of_name fun digit member => .inl ?_
  rw [Nat.toList_repr] at member
  rw [Char.isAlphanum, Nat.isDigit_of_mem_toDigits (by decide) (by decide) member, Bool.or_true]

end Phrase

/-! ### Wording -/

/-- What a diagnostic says can be set off. -/
structure Diagnostic.Clear (diagnostic : Diagnostic) : Prop where
  /-- The message can. -/
  message : Prose diagnostic.message
  /-- The label is shown as it is. -/
  label : ∀ label ∈ diagnostic.relatedLabel, Uncolored label
  /-- Each line of the help can. -/
  help : ∀ help ∈ diagnostic.help, ∀ line ∈ linesOf help, Prose line

namespace Finding

/-- The end tag of a construct, to be added. -/
theorem phrase_endTag {keyword : String} (name : Phrase 0 keyword) : Phrase 0 (endTag keyword) :=
  (by decide : Phrase 0 "\x7b% end").around name (by decide : Phrase 0 " %\x7d")

/-- What is told quotes keywords between backticks, and there is no other code in it. -/
theorem clear_diagnostic {finding : Finding}
    (names : ∀ keyword ∈ finding.keywords, Phrase 0 keyword) : finding.diagnostic.Clear := by
  cases finding with
  | unclosedDelimiter delimiter span =>
      have opens : Phrase 0 delimiter.openText := by cases delimiter <;> decide
      have closes : Phrase 0 delimiter.closeText := by cases delimiter <;> decide
      have message := (by decide : Phrase 1 "`").around opens
        (by decide : Phrase 1 "` is never closed")
      have help := (by decide : Phrase 1 "add `").around closes (by decide : Phrase 1 "`")
      refine ⟨message.prose rfl, nofun, ?_⟩
      rintro _ ⟨⟩
      exact help.prose_of_mem_linesOf rfl
  | unclosedBlock keyword span atEnd =>
      have name := names keyword List.mem_cons_self
      have message := (by decide : Phrase 1 "`").around name
        (by decide : Phrase 1 "` is never closed")
      have help := (by decide : Phrase 1 "add `").around (phrase_endTag name)
        (by decide : Phrase 1 "`")
      refine ⟨message.prose rfl, nofun, ?_⟩
      cases atEnd with
      | false => exact nofun
      | true =>
          rintro _ ⟨⟩
          exact help.prose_of_mem_linesOf rfl
  | unexpectedEndTag keyword span =>
      have name := names keyword List.mem_cons_self
      have message := ((by decide : Phrase 1 "`end").around name
        (by decide : Phrase 2 "` has no open `")).around name (by decide : Phrase 1 "` to close")
      exact ⟨message.prose rfl, nofun, nofun⟩
  | mismatchedEndTag keyword span inner opened =>
      have name := names keyword List.mem_cons_self
      have name_inner := names inner (List.mem_cons_of_mem _ List.mem_cons_self)
      have message := (((by decide : Phrase 1 "`end").around name
        (by decide : Phrase 2 "` closes `")).around name
          (by decide : Phrase 2 "` while `")).around name_inner
            (by decide : Phrase 1 "` is still open")
      have label := (by decide : Phrase 1 "`").around name_inner
        (by decide : Phrase 1 "` opened here")
      have help := (by decide : Phrase 1 "add `").around (phrase_endTag name_inner)
        (by decide : Phrase 1 "` before this tag")
      refine ⟨message.prose rfl, ?_, ?_⟩
      · rintro _ ⟨⟩
        exact label.uncolored
      · rintro _ ⟨⟩
        exact help.prose_of_mem_linesOf rfl
  | unexpectedBranch keyword span =>
      have name := names keyword List.mem_cons_self
      have message := (by decide : Phrase 1 "`").around name
        (by decide : Phrase 1 "` outside of a construct that accepts it")
      exact ⟨message.prose rfl, nofun, nofun⟩
  | unknownTag keyword =>
      have name := names keyword.text List.mem_cons_self
      have message := (by decide : Phrase 1 "unknown tag `").around name
        (by decide : Phrase 1 "`")
      exact ⟨message.prose rfl, nofun, nofun⟩
  | nestingTooDeep keyword limit span =>
      have name := names keyword List.mem_cons_self
      have message := ((by decide : Phrase 1 "`").around name
        (by decide : Phrase 1 "` is nested deeper than ")).around (.of_number limit)
          (by decide : Phrase 0 " levels")
      have help : Phrase 0 "its contents are kept in the enclosing construct" := by decide
      refine ⟨message.prose rfl, nofun, ?_⟩
      rintro _ ⟨⟩
      exact help.prose_of_mem_linesOf rfl

end Finding

namespace Diagnostic

/-! ### Reports -/

open Palette

theorem uncolored_copies (count : Nat) {character : Char} (other : character ≠ Escape.lead) :
    Uncolored (copies count character) := by
  rw [Uncolored, copies, String.toList_ofList, List.mem_replicate]
  exact fun listed => other listed.2.symm

/-- What sets off the parts of a report are escape sequences. -/
theorem colors_parts :
    Colors plain.warning colored.warning ∧ Colors plain.faint colored.faint ∧
      Colors plain.help colored.help ∧ Colors plain.reset colored.reset :=
  ⟨.code (by decide), .code (by decide), .code (by decide), .code (by decide)⟩

theorem colors_margin (width : Nat) {label : String} (uncolored : Uncolored label) :
    Colors (margin plain width label) (margin colored width label) := by
  obtain ⟨-, faint, -, reset⟩ := colors_parts
  have aligned : Uncolored (alignRight width label) :=
    uncolored_append.mpr ⟨uncolored_copies _ (by decide), uncolored⟩
  exact ((faint.append (.refl aligned)).append (.refl (by decide))).append reset

/-- The line where a span starts. -/
theorem colors_underlinedLine {table : LineTable} (uncolored : Uncolored table.source.text)
    (width : Nat) (span : Span) {label : Option String} (labels : ∀ text ∈ label, Uncolored text) :
    Colors (underlinedLine plain table width span label)
      (underlinedLine colored table width span label) := by
  obtain ⟨warning, faint, -, reset⟩ := colors_parts
  rw [underlinedLine, underlinedLine]
  split
  · exact .nil
  · rename_i line found
    have line_uncolored : Uncolored line := fun lead =>
      uncolored (subset_of_mem_linesOf (List.mem_of_getElem? found) lead)
    have numbered : Uncolored (toString ((table.positionAt span.start).line + 1)) :=
      (Phrase.of_number _).uncolored
    have space : Uncolored " " := by decide
    have ending : Uncolored "\n" := by decide
    have blanks : Uncolored (copies (table.positionAt span.start).column ' ') :=
      uncolored_copies _ (by decide)
    have carets (count : Nat) : Uncolored (copies count '^') := uncolored_copies count (by decide)
    have shown := (((colors_margin width numbered).append (.refl space)).append
      (colors_setOffDelimiters line_uncolored)).append (.refl ending)
    have before := ((shown.append (colors_margin width (by decide : Uncolored blank))).append
      (.refl space)).append (.refl blanks)
    cases label with
    | none =>
        exact (before.append ((warning.append (.refl (carets _))).append reset)).append
          (.refl ending)
    | some text =>
        exact (before.append ((((faint.append (.refl (carets _))).append (.refl space)).append
          (.refl (labels text rfl))).append reset)).append (.refl ending)

/-- The lines that tell how to mend what is wrong. -/
theorem colors_helpLines {help : String} (prose : ∀ line ∈ linesOf help, Prose line) :
    Colors (helpLines plain help) (helpLines colored help) := by
  obtain ⟨-, -, announced, reset⟩ := colors_parts
  have ending : Uncolored "\n" := by decide
  refine .join (List.forall₂_map_left_iff.mpr (List.forall₂_map_right_iff.mpr ?_))
  refine List.forall₂_same.mpr fun ⟨line, number⟩ numbered => ?_
  have line_colors := (prose line (List.fst_mem_of_mem_zipIdx numbered)).colors
  dsimp only
  split
  · exact (((((Colors.refl (by decide)).append announced).append (.refl (by decide))).append
      reset).append (.refl (by decide))).append line_colors |>.append (.refl ending)
  · exact ((Colors.refl (by decide)).append line_colors).append (.refl ending)

/-- A report gains nothing but escape sequences by colors. -/
theorem colors_report {source : Source} {fileName : String} {diagnostic : Diagnostic}
    (uncolored : Uncolored source.text) (uncolored_name : Uncolored fileName)
    (clear : diagnostic.Clear) :
    Colors (report plain source fileName diagnostic)
      (report colored source fileName diagnostic) := by
  obtain ⟨warning, faint, -, reset⟩ := colors_parts
  have uncolored_table : Uncolored (LineTable.ofSource source).source.text := uncolored
  have numbered (number : Nat) : Uncolored (toString number) := (Phrase.of_number number).uncolored
  have ending : Uncolored "\n" := by decide
  have place (line column : Nat) : Uncolored s!"{fileName}:{line + 1}:{column + 1}" := by
    have colon : Uncolored ":" := by decide
    simp only [uncolored_append]
    exact ⟨⟨⟨⟨uncolored_name, colon⟩, numbered _⟩, colon⟩, numbered _⟩
  refine .join (.cons (.refl ending) (.cons ?_ (.cons ?_ (.cons ?_ (.cons ?_ (.cons ?_
    (.cons ?_ (.cons (.refl ending) .nil))))))))
  · exact ((((((Colors.refl (by decide)).append faint).append (.refl (by decide))).append
      reset).append (.refl (by decide))).append (.refl (place _ _))).append (.refl ending)
  · exact ((((warning.append (.refl (by decide))).append reset).append
      (.refl (by decide))).append clear.message.colors).append (.refl ending)
  · exact (colors_margin _ (by decide)).append (.refl ending)
  · exact colors_underlinedLine uncolored_table _ _ nofun
  · split
    · exact .nil
    · refine colors_underlinedLine uncolored_table _ _ ?_
      rintro _ ⟨⟩
      cases labelled : diagnostic.relatedLabel with
      | none =>
        rw [Option.getD_none]
        decide
      | some label => exact clear.label label labelled
  · split
    · exact .nil
    · rename_i help helps
      exact (Colors.refl ending).append (colors_helpLines (clear.help help helps))

end Diagnostic

namespace Document

variable {options : Options} {source : Source}

theorem clear_of_mem_diagnostics {diagnostic : Diagnostic}
    (member : diagnostic ∈ (parse options source).diagnostics) : diagnostic.Clear := by
  obtain ⟨finding, told, rfl⟩ := List.mem_map.mp member
  refine Finding.clear_diagnostic (Tree.worded_build ?_ told)
  intro piece listed keyword quoted
  exact .of_name (Tag.keyword?_ofPiece options (Array.mem_toList_iff.mp listed) keyword quoted)

/-- Without its escape sequences, a report with colors is the report without them. -/
theorem withoutEscapes_report_colored (options : Options) (source : Source) (fileName : String)
    (uncolored : Uncolored source.text) (uncolored_name : Uncolored fileName) :
    ∀ diagnostic ∈ (parse options source).diagnostics,
      withoutEscapes (Diagnostic.report .colored source fileName diagnostic) =
        Diagnostic.report .plain source fileName diagnostic := by
  intro diagnostic member
  have clear : diagnostic.Clear := clear_of_mem_diagnostics member
  have colors : Colors (Diagnostic.report .plain source fileName diagnostic)
      (Diagnostic.report .colored source fileName diagnostic) :=
    Diagnostic.colors_report uncolored uncolored_name clear
  exact colors.withoutEscapes_eq

/-- An end tag without a construct, behind another closing delimiter. -/
theorem withoutEscapes_report_colored_of_stray :
    let source := Source.ofString "`%\x7d\x7b% endif -%\x7d"
    let text :=
      "\n \x1b[2mfile:\x1b[0m page:1:4\n" ++
      "\x1b[1;33mwarning:\x1b[0m \x1b[38;5;173m`endif`\x1b[0m has no open " ++
      "\x1b[38;5;173m`if`\x1b[0m to close\n\x1b[2m   |\x1b[0m\n" ++
      "\x1b[2m 1 |\x1b[0m `\x1b[38;5;180m%\x7d\x1b[0m\x1b[38;5;180m\x7b%\x1b[0m endif -" ++
      "\x1b[38;5;180m%\x7d\x1b[0m\n\x1b[2m   |\x1b[0m    \x1b[1;33m^^^^^^^^^^^^\x1b[0m\n\n"
    Uncolored source.text ∧ Uncolored "page" ∧
      ∃ diagnostic ∈ (parse .default source).diagnostics,
        Diagnostic.report .colored source "page" diagnostic = text ∧
        withoutEscapes text = Diagnostic.report .plain source "page" diagnostic := by
  intro source text
  have uncolored : Uncolored source.text := by decide +kernel
  have uncolored_name : Uncolored "page" := by decide
  have shown : (parse .default source).diagnostics.head?.map
      (Diagnostic.report .colored source "page") = some text := by
    decide +kernel
  obtain ⟨diagnostic, first, report_eq⟩ := Option.map_eq_some_iff.mp shown
  have member := List.mem_of_head? first
  have without := withoutEscapes_report_colored .default source "page" uncolored uncolored_name
    diagnostic member
  rw [report_eq] at without
  exact ⟨uncolored, uncolored_name, diagnostic, member, report_eq, without⟩

end Document
end TwigTemplate
