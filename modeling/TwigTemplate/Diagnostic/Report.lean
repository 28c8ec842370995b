import TwigTemplate.Diagnostic
import TwigTemplate.LineTable

/-!
# Reports

A diagnostic is shown together with the lines to which it points, with colors or without.
-/

namespace TwigTemplate

/-- What is put around the parts of a report to set them off. -/
structure Palette where
  /-- Before the word that announces a warning, and before its underline. -/
  warning : String
  /-- Before parts of little weight. -/
  faint : String
  /-- Before the word that announces help. -/
  help : String
  /-- Back to the usual appearance. -/
  reset : String
  /-- Sets off the code in prose. -/
  prose : String → String
  /-- Sets off the delimiters in a line of a template. -/
  line : String → String

namespace Palette

/-- Back to the usual appearance. -/
def resetCode : String := "\x1b[0m"

/-- Set off every other part between backticks, which is closed by a backtick if it is not so
already. -/
def setOffCode (text : String) : String :=
  let parts := (groupsBetween (· == '\x60') text.toList).map String.ofList
  let marked := parts.zipIdx.map fun (part, index) =>
    if index % 2 == 1 then s!"\x1b[38;5;173m`{part}`{resetCode}" else part
  String.join marked

/-- How a pair of characters of a template is set off, if it is a delimiter. -/
def delimiterCode? (first second : Char) : Option String :=
  let pair := String.ofList [first, second]
  if [Delimiter.tag, .expression].any fun delimiter =>
      pair == delimiter.openText || pair == delimiter.closeText then
    some "\x1b[38;5;180m"
  else if pair == Delimiter.comment.openText || pair == Delimiter.comment.closeText then
    some "\x1b[38;5;244m"
  else none

/-- Set off the delimiters in a line, from left to right. -/
def setOffDelimiters (line : String) : String :=
  go "" line.toList
where
  /-- Append what remains of the line. -/
  go (out : String) : List Char → String
    | [] => out
    | [character] => out.push character
    | first :: second :: rest =>
      match delimiterCode? first second with
      | some code => go (out ++ code ++ String.ofList [first, second] ++ resetCode) rest
      | none => go (out.push first) (second :: rest)

/-- Nothing is set off. -/
def plain : Palette := ⟨"", "", "", "", id, id⟩

/-- Escape sequences for terminals. -/
def colored : Palette :=
  { warning := "\x1b[1;33m"
    faint := "\x1b[2m"
    help := "\x1b[1;38;5;73m"
    reset := resetCode
    prose := setOffCode
    line := setOffDelimiters }

end Palette

namespace Diagnostic

/-- A character a number of times. -/
def copies (count : Nat) (character : Char) : String :=
  String.ofList (List.replicate count character)

/-- A text with blanks before it up to a width. -/
def alignRight (width : Nat) (text : String) : String := copies (width - text.length) ' ' ++ text

/-- No line number. -/
def blank : String := ""

/-- The margin of a line in a report. -/
def margin (palette : Palette) (width : Nat) (label : String) : String :=
  s!"{palette.faint}{alignRight width label} |{palette.reset}"

/-- The line where a span starts and an underline below the part of the line that the span covers.
Nothing is shown for an empty line at the end of the source. -/
def underlinedLine (palette : Palette) (table : LineTable) (width : Nat) (span : Span)
    (label : Option String) : String :=
  let start := table.positionAt span.start
  match (linesOf table.source.text)[start.line]? with
  | none => ""
  | some line =>
    let stop := table.positionAt span.stop
    let lastColumn := if stop.line == start.line then stop.column else line.length
    let blanks := copies start.column ' '
    let carets := copies (max (lastColumn - start.column) 1) '^'
    let shown := s!"{margin palette width (toString (start.line + 1))} {palette.line line}\n"
    let underline :=
      match label with
      | some label => s!"{palette.faint}{carets} {label}{palette.reset}"
      | none => s!"{palette.warning}{carets}{palette.reset}"
    s!"{shown}{margin palette width blank} {blanks}{underline}\n"

/-- The lines that tell how to mend what is wrong. -/
def helpLines (palette : Palette) (help : String) : String :=
  String.join <| (linesOf help).zipIdx.map fun (line, number) =>
    if number == 0 then s!" {palette.help}help:{palette.reset} {palette.prose line}\n"
    else s!"       {palette.prose line}\n"

/-- Width of the widest line number that a report shows, and at least two. -/
def marginWidth (table : LineTable) (diagnostic : Diagnostic) : Nat :=
  let last := max diagnostic.span.start ((diagnostic.relatedSpan.map (·.start)).getD 0)
  max (toString (table.lineAt last + 1)).length 2

/-- The report on a diagnostic about a source that goes by a name. -/
def report (palette : Palette) (source : Source) (fileName : String) (diagnostic : Diagnostic) :
    String :=
  let table := LineTable.ofSource source
  let start := table.positionAt diagnostic.span.start
  let width := diagnostic.marginWidth table
  let place := s!"{fileName}:{start.line + 1}:{start.column + 1}"
  let related :=
    match diagnostic.relatedSpan with
    | none => ""
    | some span =>
      underlinedLine palette table width span (some (diagnostic.relatedLabel.getD "opened here"))
  let help :=
    match diagnostic.help with
    | none => ""
    | some help => "\n" ++ helpLines palette help
  String.join
    ["\n", s!" {palette.faint}file:{palette.reset} {place}\n",
      s!"{palette.warning}warning:{palette.reset} {palette.prose diagnostic.message}\n",
      s!"{margin palette width blank}\n",
      underlinedLine palette table width diagnostic.span none, related, help, "\n"]

end Diagnostic
end TwigTemplate
