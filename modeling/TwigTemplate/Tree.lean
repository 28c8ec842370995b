import TwigTemplate.Diagnostic
import TwigTemplate.Tag

/-!
# Statement trees

The pieces of a template are read once, in order, with the open constructs at hand, the innermost
one first.  An end tag that is missing or does not match never stops the reading: the constructs
that it leaves open have no end piece, and a finding tells of them.

Below the nesting limit, constructs are not kept: only their keywords are remembered until their end
tags, and their contents go to the innermost construct that is kept.
-/

namespace TwigTemplate

/-- The structure of a template and what is wrong with it. -/
structure Tree where
  /-- The statements outside all constructs. -/
  statements : List Statement
  /-- Irregularities in the order in which they were met. -/
  findings : List Finding

namespace Tree

/-- Constructs inside this many others are not kept. -/
def nestingLimit : Nat := 256

/-- What is told about the irregularities. -/
def diagnostics (tree : Tree) : List Diagnostic := tree.findings.map Finding.diagnostic

/-- An open construct.  Statements, and branches, are kept latest first. -/
structure Frame where
  /-- What opened it. -/
  header : Construct
  /-- The piece that opened it. -/
  piece : Nat
  /-- Where that piece lies. -/
  span : Span
  /-- The main body so far. -/
  body : List Statement
  /-- The branches so far. -/
  branches : List (Branch Statement)

namespace Frame

/-- The keyword of the construct. -/
def keyword (frame : Frame) : String := frame.header.keyword

/-- Add a statement to the body that was opened last. -/
def push (frame : Frame) (statement : Statement) : Frame :=
  match frame.branches with
  | [] => { frame with body := statement :: frame.body }
  | branch :: branches =>
    { frame with branches := { branch with body := statement :: branch.body } :: branches }

/-- The construct may have such a branch now, after its latest one. -/
def accepts (frame : Frame) (kind : BranchKind) : Bool :=
  frame.header.accepts kind && !frame.branches.head?.any (·.kind.isOtherwise)

/-- Open a branch. -/
def openBranch (frame : Frame) (kind : BranchKind) (piece : Nat) : Frame :=
  { frame with branches := ⟨kind, piece, []⟩ :: frame.branches }

/-- The finished construct. -/
def finish (frame : Frame) (endPiece : Option Nat) : Statement :=
  .construct frame.piece frame.header frame.body.reverse
    (frame.branches.reverse.map fun branch => { branch with body := branch.body.reverse }) endPiece

/-- The construct is cut off. -/
def unclosed (frame : Frame) (atEnd : Bool) : Finding :=
  .unclosedBlock frame.keyword frame.span atEnd

end Frame

/-- What has been read so far. -/
structure Reading where
  /-- Finished statements outside all constructs, latest first. -/
  root : List Statement
  /-- Open constructs, innermost first. -/
  stack : List Frame
  /-- Keywords of the open constructs that are not kept, innermost first. -/
  flattened : List String
  /-- Irregularities so far. -/
  findings : Array Finding

namespace Reading

/-- Nothing has been read. -/
def start : Reading := ⟨[], [], [], #[]⟩

/-- Tell of an irregularity. -/
def report (reading : Reading) (finding : Finding) : Reading :=
  { reading with findings := reading.findings.push finding }

/-- Add a statement to the body being read. -/
def push (reading : Reading) (statement : Statement) : Reading :=
  match reading.stack with
  | [] => { reading with root := statement :: reading.root }
  | frame :: frames => { reading with stack := frame.push statement :: frames }

/-- Finish the innermost construct. -/
def pop (reading : Reading) (endPiece : Option Nat) : Reading :=
  match reading.stack with
  | [] => reading
  | frame :: frames => { reading with stack := frames }.push (frame.finish endPiece)

/-- Cut off constructs, the innermost one first. -/
def cutOff (atEnd : Bool) (reading : Reading) (frames : List Frame) : Reading :=
  frames.foldl (fun reading frame => (reading.report (frame.unclosed atEnd)).pop none) reading

/-- Open a construct, or only remember its keyword when `limit` constructs are open. -/
def openConstruct (limit : Option Nat) (reading : Reading) (piece : Nat) (span : Span)
    (header : Construct) : Reading :=
  match limit.filter (· ≤ reading.stack.length) with
  | none => { reading with stack := ⟨header, piece, span, [], []⟩ :: reading.stack }
  | some limit =>
    let reported :=
      if reading.flattened.isEmpty then
        reading.report (.nestingTooDeep header.keyword limit span)
      else reading
    { reported with flattened := header.keyword :: reported.flattened }

/-- Open a branch of the innermost construct.  Branches of constructs that are not kept are
ignored. -/
def openBranch (reading : Reading) (piece : Nat) (span : Span) (kind : BranchKind) : Reading :=
  if reading.flattened.isEmpty then
    match reading.stack with
    | frame :: frames =>
      if frame.accepts kind then
        { reading with stack := frame.openBranch kind piece :: frames }
      else reading.report (.unexpectedBranch kind.keyword span)
    | [] => reading.report (.unexpectedBranch kind.keyword span)
  else reading

/-- End the innermost construct with a keyword, and cut off all constructs inside it. -/
def close (reading : Reading) (piece : Nat) (span : Span) (keyword : String) : Reading :=
  if reading.flattened.contains keyword then
    { reading with flattened := (reading.flattened.dropWhile (· != keyword)).drop 1 }
  else
    match reading.stack.span (·.keyword != keyword) with
    | (_, []) => reading.report (.unexpectedEndTag keyword span)
    | ([], _ :: _) => { reading with flattened := [] }.pop (some piece)
    | (innermost :: others, _ :: _) =>
      let mismatch := .mismatchedEndTag keyword span innermost.keyword innermost.span
      (cutOff false ({ reading with flattened := [] }.report mismatch) (innermost :: others)).pop
        (some piece)

/-- Read a piece by its meaning. -/
def apply (limit : Option Nat) (reading : Reading) (piece : Nat) (span : Span) : Tag → Reading
  | .opening header => reading.openConstruct limit piece span header
  | .branch kind => reading.openBranch piece span kind
  | .closing keyword => reading.close piece span keyword
  | .single leaf => reading.push (.leaf piece leaf)
  | .inert => reading
  | .unknown keyword => reading.report (.unknownTag keyword)

/-- Finish all constructs at the end of the template. -/
def finish (reading : Reading) : Tree :=
  let finished := cutOff true reading reading.stack
  ⟨finished.root.reverse, finished.findings.toList⟩

end Reading

/-- Number of different offsets: they are words of 64 bits. -/
def offsetCount : Nat := UInt64.size

/-- Where the opening delimiter of a piece lies, cut off at the end of the piece.  Adding to an
offset wraps around, which no piece that holds its opening delimiter comes near. -/
def delimiterSpan (piece : Piece) : Span :=
  let start := piece.span.start
  if start + 2 ≤ piece.span.stop then ⟨start, start + 2⟩
  else ⟨start, min ((start + 2) % offsetCount) piece.span.stop⟩

/-- The finding on a region that is not closed. -/
def unclosed? (piece : Piece) : Option Finding :=
  match piece.kind, piece.closed with
  | .region delimiter, false => some (.unclosedDelimiter delimiter (delimiterSpan piece))
  | _, _ => none

/-- Read the piece with an index. -/
def step (limit : Option Nat) (options : Options) (source : Source) (reading : Reading)
    (piece : Piece) (index : Nat) : Reading :=
  let reading := (unclosed? piece).elim reading reading.report
  reading.apply limit index piece.span (Tag.ofPiece options source piece)

/-- The tree that pieces of a source form, with a nesting limit or without one. -/
def build (limit : Option Nat) (options : Options) (source : Source) (pieces : List Piece) : Tree :=
  let read := fun reading (piece, index) => step limit options source reading piece index
  (pieces.zipIdx.foldl read Reading.start).finish

/-- The tree that pieces of a source form. -/
def ofPieces (options : Options) (source : Source) (pieces : List Piece) : Tree :=
  build (some nestingLimit) options source pieces

end Tree
end TwigTemplate
