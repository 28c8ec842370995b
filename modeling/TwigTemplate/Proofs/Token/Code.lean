import TwigTemplate.Proofs.Literal
import TwigTemplate.Proofs.Token.Lookahead

/-!
# What a lexeme of code can be

Inside a tag or an expression a lexeme is a literal, a delimiter, or a run of plain code.  A run
goes on up to the end of the text or up to something that is not plain.
-/

namespace TwigTemplate
namespace Lexeme

/-- A run of plain code before the rest of the text, from one depth to another. -/
inductive Runs (delimiter : Delimiter) (rest : List UInt8) : Nat → List UInt8 → Nat → Prop
  /-- The run is over. -/
  | nil (depth : Nat) : Runs delimiter rest depth [] depth
  /-- Nothing but plain code starts with the next byte. -/
  | cons {depth later : Nat} {byte : UInt8} {run : List UInt8}
      (plain : endsRun delimiter depth (byte :: (run ++ rest)) = false)
      (further : Runs delimiter rest (depthAfter delimiter depth byte) run later) :
      Runs delimiter rest depth (byte :: run) later

theorem exists_runs (delimiter : Delimiter) (depth : Nat) (content : List UInt8) (extra : Nat)
    (bytes : List UInt8) :
    ∃ run rest later, bytes = run ++ rest ∧ Runs delimiter rest depth run later ∧
      (rest = [] ∨ endsRun delimiter later rest = true) ∧
      codeRun delimiter depth content extra bytes =
        (raw (extra + run.length), .region delimiter later (run.reverse ++ content)) := by
  induction bytes generalizing depth content extra with
  | nil => exact ⟨[], [], depth, rfl, .nil depth, .inl rfl, rfl⟩
  | cons byte tail ih =>
      rw [codeRun]
      split
      · rename_i ends
        exact ⟨[], byte :: tail, depth, rfl, .nil depth, .inr ends, rfl⟩
      · rename_i plain
        obtain ⟨run, rest, later, rfl, runs, stops, followed⟩ :=
          ih (depthAfter delimiter depth byte) (byte :: content) (extra + 1)
        refine ⟨byte :: run, rest, later, rfl, .cons (by simpa using plain) runs, stops, ?_⟩
        rw [followed]
        simp [Nat.add_assoc, Nat.add_comm 1]

/-- The ways in which a lexeme of code is taken, with the mode after it. -/
inductive TakesCode (delimiter : Delimiter) (depth : Nat) (content : List UInt8) (byte : UInt8) :
    List UInt8 → Lexeme × Mode → Prop
  /-- A literal goes up to its closing quote. -/
  | quoted {inside rest : List UInt8} (quotes : Byte.isQuote byte = true)
      (within : Literal.Inside byte inside) :
      TakesCode delimiter depth content byte (inside ++ byte :: rest)
        (⟨.quoted, false, inside.length + 1⟩,
          .region delimiter depth ((inside ++ [byte]).reverse ++ byte :: content))
  /-- A literal that is never closed goes up to the end. -/
  | unclosed {tail : List UInt8} (quotes : Byte.isQuote byte = true)
      (missing : ¬ Literal.Closed byte tail) :
      TakesCode delimiter depth content byte tail
        (raw tail.length, .region delimiter depth (tail.reverse ++ byte :: content))
  /-- The region closes, outside all braces. -/
  | closes {tail : List UInt8} (outside : depth = 0)
      (closer : delimiter.startsClose (byte :: tail) = true) :
      TakesCode delimiter depth content byte tail (closing delimiter byte content)
  /-- Another region opens. -/
  | opens {tail : List UInt8} {other : Delimiter}
      (opener : Delimiter.opener? (byte :: tail) = some other) (differs : other ≠ delimiter) :
      TakesCode delimiter depth content byte tail (opening other tail)
  /-- Plain code goes up to the end or up to something else. -/
  | runs {run rest : List UInt8} {later : Nat}
      (plain : Runs delimiter rest depth (byte :: run) later)
      (stops : rest = [] ∨ endsRun delimiter later rest = true) :
      TakesCode delimiter depth content byte (run ++ rest)
        (raw run.length, .region delimiter later (run.reverse ++ byte :: content))

theorem takesCode_of_isQuote {byte : UInt8} (quotes : Byte.isQuote byte = true)
    (delimiter : Delimiter) (depth : Nat) (content tail : List UInt8) :
    TakesCode delimiter depth content byte tail (ofCode delimiter depth content byte tail) := by
  rw [ofCode, if_pos quotes]
  cases closed : Literal.remainder? byte tail with
  | none =>
      have missing := (Literal.remainder?_eq_none_iff quotes).mp closed
      dsimp only
      rw [List.reverseAux_eq]
      exact .unclosed quotes missing
  | some extra =>
      obtain ⟨inside, rest, rfl, within, rfl⟩ := (Literal.remainder?_eq_some_iff quotes).mp closed
      have taken : (inside ++ byte :: rest).take (inside.length + 1) = inside ++ [byte] := by
        simp [List.take_length_add_append]
      dsimp only
      rw [List.reverseAux_eq, taken]
      exact .quoted quotes within

theorem takesCode_ofCode (delimiter : Delimiter) (depth : Nat) (content : List UInt8)
    (byte : UInt8) (tail : List UInt8) :
    TakesCode delimiter depth content byte tail (ofCode delimiter depth content byte tail) := by
  by_cases quotes : Byte.isQuote byte = true
  · exact takesCode_of_isQuote quotes delimiter depth content tail
  by_cases closes : (depth == 0 && delimiter.startsClose (byte :: tail)) = true
  · rw [ofCode, if_neg quotes, if_pos closes]
    rw [Bool.and_eq_true, beq_iff_eq] at closes
    exact .closes closes.1 closes.2
  cases opens : (Delimiter.opener? (byte :: tail)).filter (· != delimiter) with
  | some other =>
      rw [ofCode, if_neg quotes, if_neg closes, opens]
      obtain ⟨opener, differs⟩ := Option.filter_eq_some_iff.mp opens
      exact .opens opener (bne_iff_ne.mp differs)
  | none =>
      have plain : endsRun delimiter depth (byte :: tail) = false := by
        rw [endsRun, List.head?_cons, Option.any_some, ← Option.isSome_filter, opens,
          Bool.eq_false_iff.mpr quotes, Bool.eq_false_iff.mpr closes]
        rfl
      rw [ofCode_of_not_endsRun plain]
      obtain ⟨run, rest, later, rfl, runs, stops, followed⟩ :=
        exists_runs delimiter (depthAfter delimiter depth byte) (byte :: content) 0 tail
      rw [followed, Nat.zero_add]
      exact .runs (.cons plain runs) stops

theorem codeRun_of_runs {delimiter : Delimiter} {rest run : List UInt8} {depth later : Nat}
    (runs : Runs delimiter rest depth run later)
    (stops : rest = [] ∨ endsRun delimiter later rest = true) (content : List UInt8) (extra : Nat) :
    codeRun delimiter depth content extra (run ++ rest) =
      (raw (extra + run.length), .region delimiter later (run.reverse ++ content)) := by
  induction runs generalizing content extra with
  | nil depth =>
      cases rest with
      | nil => rfl
      | cons byte tail =>
          have ends : endsRun delimiter depth (byte :: tail) = true := stops.resolve_left (by simp)
          exact if_pos ends
  | cons plain further ih =>
      rw [List.cons_append, codeRun, plain]
      simp only [Bool.false_eq_true, if_false]
      rw [ih stops]
      simp [Nat.add_assoc, Nat.add_comm 1]

theorem not_startsClose_of_leftBrace (delimiter : Delimiter) (tail : List UInt8) :
    delimiter.startsClose (Byte.leftBrace :: tail) = false := by
  cases tail <;> cases delimiter <;> rfl

/-- A lexeme of code can be taken in one way only. -/
theorem TakesCode.eq_ofCode {delimiter : Delimiter} {depth : Nat} {content : List UInt8}
    {byte : UInt8} {tail : List UInt8} {taken : Lexeme × Mode}
    (takes : TakesCode delimiter depth content byte tail taken) :
    ofCode delimiter depth content byte tail = taken := by
  cases takes with
  | @quoted inside rest quotes within =>
      have closed : Literal.remainder? byte (inside ++ byte :: rest) = some (inside.length + 1) :=
        (Literal.remainder?_eq_some_iff quotes).mpr ⟨inside, rest, rfl, within, rfl⟩
      rw [ofCode, if_pos quotes, closed]
      simp [List.take_length_add_append]
  | unclosed quotes missing =>
      rw [ofCode, if_pos quotes, (Literal.remainder?_eq_none_iff quotes).mpr missing]
      dsimp only
      rw [List.reverseAux_eq]
  | closes outside closer =>
      rw [outside]
      exact ofCode_of_startsClose closer content
  | @opens tail other opener differs =>
      obtain ⟨rest, brace⟩ := Delimiter.opener?_eq_some_iff.mp opener
      rw [Delimiter.openBytes_eq] at brace
      obtain ⟨rfl, -⟩ := List.cons.inj brace
      have found : (Delimiter.opener? (Byte.leftBrace :: tail)).filter (· != delimiter) =
          some other := Option.filter_eq_some_iff.mpr ⟨opener, bne_iff_ne.mpr differs⟩
      rw [ofCode, if_neg (by decide), not_startsClose_of_leftBrace, Bool.and_false,
        if_neg Bool.false_ne_true, found]
  | @runs run rest later plain stops =>
      cases plain with
      | cons plain further =>
          rw [ofCode_of_not_endsRun plain, codeRun_of_runs further stops, Nat.zero_add]

end Lexeme
end TwigTemplate
