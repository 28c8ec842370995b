import TwigTemplate.Proofs.Token.Cut

/-!
# Exchanging what follows a run

Where a run stops before a delimiter, the text from there on may be exchanged for another one that
begins with the same delimiter.  Only the search for the end tag of a verbatim body looks further
ahead, so the two texts must not differ in where it comes to an end.
-/

namespace TwigTemplate

open Lexeme

/-- The texts begin with the same two bytes, and with the same three if the first is a trim mark. -/
def Alike (left right : List UInt8) : Prop :=
  ∃ first second rest other, left = first :: second :: rest ∧ right = first :: second :: other ∧
    (Byte.isTrimMark first = true → rest.head? = other.head?)

namespace Alike

variable {left right : List UInt8} (alike : Alike left right) (before : List UInt8)
include alike

theorem head?_append : (before ++ left).head? = (before ++ right).head? := by
  obtain ⟨first, second, rest, other, rfl, rfl, -⟩ := alike
  cases before <;> rfl

theorem opener?_append :
    Delimiter.opener? (before ++ left) = Delimiter.opener? (before ++ right) := by
  obtain ⟨first, second, rest, other, rfl, rfl, -⟩ := alike
  match before with
  | [] => rfl
  | [_] => rfl
  | _ :: _ :: _ => rfl

theorem startsBareClose_append (delimiter : Delimiter) :
    delimiter.startsBareClose (before ++ left) = delimiter.startsBareClose (before ++ right) := by
  obtain ⟨first, second, rest, other, rfl, rfl, -⟩ := alike
  match before with
  | [] => rfl
  | [_] => rfl
  | _ :: _ :: _ => rfl

theorem startsClose_append (delimiter : Delimiter) :
    delimiter.startsClose (before ++ left) = delimiter.startsClose (before ++ right) := by
  cases before with
  | cons byte before =>
      rw [List.cons_append, List.cons_append, Delimiter.startsClose, Delimiter.startsClose,
        ← List.cons_append, ← List.cons_append, alike.startsBareClose_append,
        alike.startsBareClose_append]
  | nil =>
      have bare := alike.startsBareClose_append [] delimiter
      obtain ⟨first, second, rest, other, rfl, rfl, third⟩ := alike
      rw [List.nil_append, List.nil_append] at bare ⊢
      rw [Delimiter.startsClose, Delimiter.startsClose, bare]
      cases marked : Byte.isTrimMark first with
      | false => rfl
      | true =>
          have same := third marked
          cases rest <;> cases other <;> simp_all [Delimiter.startsBareClose]

theorem endsRun_append (delimiter : Delimiter) (depth : Nat) :
    endsRun delimiter depth (before ++ left) = endsRun delimiter depth (before ++ right) := by
  rw [endsRun, endsRun, alike.head?_append, alike.startsClose_append, alike.opener?_append]

end Alike

/-- What follows a run may be exchanged: the texts begin with the same delimiter, and no end tag of
a verbatim body that begins earlier reaches into only one of them. -/
structure Exchanges (left right : List UInt8) : Prop where
  /-- No delimiter tells them apart. -/
  alike : Alike left right
  /-- No end tag does. -/
  endTag : ∀ keyword ∈ verbatimKeywords, ∀ before, before ≠ [] →
    startsTag (endWord keyword) (before ++ left) = startsTag (endWord keyword) (before ++ right)

/-- A test that comes to the same result on both texts stops at the same place. -/
theorem distanceTo_exchange {stop : List UInt8 → Bool} {front left right : List UInt8}
    (filled : left ≠ [] ∧ right ≠ [])
    (inside : ∀ before, before ≠ [] → stop (before ++ left) = stop (before ++ right))
    (fits : distanceTo stop (front ++ left) ≤ front.length)
    (edge : distanceTo stop (front ++ left) = front.length → stop left = true → stop right = true) :
    distanceTo stop (front ++ right) = distanceTo stop (front ++ left) := by
  induction front with
  | nil =>
      obtain ⟨first, rest, rfl⟩ := List.exists_cons_of_ne_nil filled.1
      obtain ⟨other, later, rfl⟩ := List.exists_cons_of_ne_nil filled.2
      have none : distanceTo stop (first :: rest) = 0 := Nat.le_zero.mp fits
      have stops : stop (first :: rest) = true := by
        rw [distanceTo_cons] at none
        split at none
        · assumption
        · exact absurd none (Nat.succ_ne_zero _)
      rw [List.nil_append, List.nil_append, none, distanceTo_cons, if_pos (edge none stops)]
  | cons byte front ih =>
      have same := inside (byte :: front) (List.cons_ne_nil _ _)
      rw [List.cons_append, List.cons_append] at same
      rw [List.cons_append, distanceTo_cons] at fits edge
      rw [List.cons_append, List.cons_append, distanceTo_cons, distanceTo_cons, ← same]
      split
      · rfl
      · rename_i goes_on
        rw [if_neg goes_on] at fits edge
        rw [ih (Nat.le_of_succ_le_succ fits) fun whole => edge (congrArg Nat.succ whole)]

namespace Alike

theorem ne_nil {left right : List UInt8} (alike : Alike left right) : left ≠ [] ∧ right ≠ [] := by
  obtain ⟨first, second, rest, other, rfl, rfl, -⟩ := alike
  simp

variable {left right front : List UInt8} {byte : UInt8} (alike : Alike left right)
include alike

theorem opening_exchange {delimiter : Delimiter}
    (fits : (opening delimiter (front ++ left)).1.extra ≤ front.length) :
    opening delimiter (front ++ right) = opening delimiter (front ++ left) := by
  match front with
  | [] =>
    simp only [opening] at fits
    split at fits <;> simp at fits
  | [mark] =>
    have same := alike.head?_append []
    simp only [List.nil_append] at same
    simp [opening, same]
  | _ :: _ :: _ => rfl

theorem ofMarkup_exchange (fits : (ofMarkup byte (front ++ left)).1.extra ≤ front.length) :
    ofMarkup byte (front ++ right) = ofMarkup byte (front ++ left) := by
  have same := alike.opener?_append (byte :: front)
  rw [List.cons_append, List.cons_append] at same
  rw [ofMarkup] at fits ⊢
  rw [ofMarkup, ← same]
  cases opens : Delimiter.opener? (byte :: (front ++ left)) with
  | some delimiter =>
      rw [opens] at fits
      exact alike.opening_exchange fits
  | none =>
      rw [opens] at fits
      dsimp only at fits ⊢
      rw [distanceTo_exchange alike.ne_nil (fun before _ => by rw [alike.opener?_append]) fits]
      intro _ stops
      have here := alike.opener?_append []
      rw [List.nil_append, List.nil_append] at here
      rwa [← here]

theorem ofComment_exchange (fits : (ofComment byte (front ++ left)).1.extra ≤ front.length) :
    ofComment byte (front ++ right) = ofComment byte (front ++ left) := by
  have same := alike.startsClose_append (byte :: front) .comment
  rw [List.cons_append, List.cons_append] at same
  rw [ofComment] at fits ⊢
  rw [ofComment, ← same]
  split
  · rfl
  · rename_i goes_on
    rw [if_neg goes_on] at fits
    rw [distanceTo_exchange alike.ne_nil (fun before _ => alike.startsClose_append before _) fits]
    intro _ stops
    have here := alike.startsClose_append [] .comment
    rwa [List.nil_append, List.nil_append, stops, eq_comm] at here

theorem runs_exchange {delimiter : Delimiter} {depth later : Nat} {run : List UInt8}
    (runs : Runs delimiter (front ++ left) depth run later) :
    Runs delimiter (front ++ right) depth run later := by
  induction runs with
  | nil depth => exact .nil depth
  | @cons depth later byte run plain _ ih =>
      refine .cons ?_ ih
      have same := alike.endsRun_append (byte :: (run ++ front)) delimiter depth
      simp only [List.cons_append, List.append_assoc] at same
      rwa [← same]

/-- A lexeme of code that ends before the exchanged text is taken in the same way. -/
theorem ofCode_exchange {delimiter : Delimiter} {depth : Nat} {content : List UInt8}
    (fits : (ofCode delimiter depth content byte (front ++ left)).1.extra ≤ front.length) :
    ofCode delimiter depth content byte (front ++ right) =
      ofCode delimiter depth content byte (front ++ left) := by
  have longer := List.length_pos_iff.mpr alike.ne_nil.1
  have takes := takesCode_ofCode delimiter depth content byte (front ++ left)
  generalize tail_eq : front ++ left = tail at takes fits
  generalize ofCode delimiter depth content byte tail = taken at takes fits ⊢
  apply TakesCode.eq_ofCode
  cases takes with
  | @quoted inside rest quotes within =>
      rw [List.append_cons] at tail_eq
      obtain ⟨more, rfl, rfl⟩ := exists_more_of_append_eq tail_eq (by simpa using fits)
      rw [List.append_assoc, List.append_assoc, List.singleton_append]
      exact .quoted quotes within
  | unclosed =>
      have whole : tail.length ≤ front.length := fits
      rw [← tail_eq, List.length_append] at whole
      omega
  | closes outside closer =>
      have same := alike.startsClose_append (byte :: front) delimiter
      rw [List.cons_append, List.cons_append, tail_eq, closer] at same
      exact .closes outside same.symm
  | opens opener differs =>
      have same := alike.opener?_append (byte :: front)
      rw [List.cons_append, List.cons_append, tail_eq, opener] at same
      rw [← tail_eq] at fits ⊢
      rw [← alike.opening_exchange fits]
      exact .opens same.symm differs
  | @runs run rest later plain stops =>
      obtain ⟨more, rfl, rfl⟩ := exists_more_of_append_eq tail_eq fits
      rw [List.append_assoc]
      refine .runs (alike.runs_exchange plain) (.inr ?_)
      rw [← alike.endsRun_append]
      exact stops.resolve_left (by simp [alike.ne_nil.1])

end Alike

namespace Exchanges

variable {left right front : List UInt8} {byte : UInt8} (exchanges : Exchanges left right)
include exchanges

theorem ofVerbatim_exchange {keyword : String} (known : keyword ∈ verbatimKeywords)
    (fits : (ofVerbatim keyword byte (front ++ left)).1.extra ≤ front.length)
    (edge : (ofVerbatim keyword byte (front ++ left)).1.kind = .raw →
      (ofVerbatim keyword byte (front ++ left)).1.extra = front.length →
        startsTag (endWord keyword) left = true → startsTag (endWord keyword) right = true) :
    ofVerbatim keyword byte (front ++ right) = ofVerbatim keyword byte (front ++ left) := by
  have same := exchanges.endTag keyword known (byte :: front) (List.cons_ne_nil _ _)
  rw [List.cons_append, List.cons_append] at same
  by_cases starts : startsTag (endWord keyword) (byte :: (front ++ left)) = true
  · rw [ofVerbatim_of_startsTag starts] at fits ⊢
    rw [ofVerbatim_of_startsTag (same ▸ starts), exchanges.alike.ofMarkup_exchange fits]
  · rw [ofVerbatim_of_not_startsTag starts] at fits edge ⊢
    rw [ofVerbatim_of_not_startsTag (same ▸ starts),
      distanceTo_exchange exchanges.alike.ne_nil (exchanges.endTag keyword known) fits (edge rfl)]

/-- A lexeme that ends before the exchanged text is taken in the same way. -/
theorem next_exchange {mode : Mode} (sound : mode.Sound)
    (fits : (next mode byte (front ++ left)).1.extra ≤ front.length)
    (edge : ∀ keyword, mode = .verbatim keyword →
      (next mode byte (front ++ left)).1.kind = .raw →
      (next mode byte (front ++ left)).1.extra = front.length →
        startsTag (endWord keyword) left = true → startsTag (endWord keyword) right = true) :
    next mode byte (front ++ right) = next mode byte (front ++ left) := by
  match mode with
  | .markup => exact exchanges.alike.ofMarkup_exchange fits
  | .verbatim keyword => exact exchanges.ofVerbatim_exchange sound fits (edge keyword rfl)
  | .region .comment _ _ => exact exchanges.alike.ofComment_exchange fits
  | .region .tag _ _ => exact exchanges.alike.ofCode_exchange fits
  | .region .expression _ _ => exact exchanges.alike.ofCode_exchange fits

end Exchanges

/-- A run stays the same when what follows it is exchanged.  Where it ends with a verbatim body, the
end tag must be kept. -/
theorem Reads.exchange {mode final : Mode} {front left right : List UInt8} {lexemes : List Lexeme}
    (exchanges : Exchanges left right) (reads : Reads mode (front ++ left) lexemes final left)
    (sound : mode.Sound)
    (edge : ∀ others lexeme keyword between, lexemes = others ++ [lexeme] → lexeme.kind = .raw →
      Reads mode (front ++ left) others (.verbatim keyword) between →
        startsTag (endWord keyword) left = true → startsTag (endWord keyword) right = true) :
    Reads mode (front ++ right) lexemes final right := by
  generalize whole : front ++ left = bytes at reads edge
  induction reads generalizing front with
  | done mode bytes =>
      rw [List.append_left_eq_self] at whole
      rw [whole]
      exact .done mode right
  | @step mode after final byte tail rest lexeme lexemes taken further ih =>
      obtain ⟨front, rfl, rfl, fits⟩ := further.exists_front exchanges.alike.ne_nil.1 whole
      obtain rfl : (next mode byte (front ++ rest)).1 = lexeme := by rw [taken]
      obtain rfl : (next mode byte (front ++ rest)).2 = after := by rw [taken]
      rw [List.drop_append_of_le_length fits] at further ih
      have same : next mode byte (front ++ right) = next mode byte (front ++ rest) := by
        apply exchanges.next_exchange sound fits
        rintro keyword rfl is_raw all
        have long := further.length_eq
        rw [all, List.drop_length, List.nil_append] at long
        have none : lexemes = [] := eq_nil_of_width (by omega)
        exact edge [] _ keyword _ (by rw [none]; rfl) is_raw (.done _ _)
      rw [List.cons_append]
      refine .step same ?_
      rw [List.drop_append_of_le_length fits]
      refine ih exchanges (sound_next mode byte (front ++ rest)) rfl ?_
      rintro others last keyword between rfl is_raw first_reads
      refine edge (_ :: others) last keyword between rfl is_raw (.step rfl ?_)
      rwa [List.drop_append_of_le_length fits]

/-! ### Before delimiters -/

/-- What follows an opening delimiter may be exchanged together with it. -/
theorem exchanges_of_opener {left right : List UInt8} {delimiter : Delimiter}
    (opens_left : Delimiter.opener? left = some delimiter)
    (opens_right : Delimiter.opener? right = some delimiter) : Exchanges left right := by
  rw [Delimiter.opener?_eq_some_iff, Delimiter.openBytes_eq] at opens_left opens_right
  obtain ⟨rest, rfl⟩ := opens_left
  obtain ⟨other, rfl⟩ := opens_right
  refine ⟨⟨_, _, rest, other, rfl, rfl, fun marked => absurd marked (by decide)⟩, ?_⟩
  intro keyword known before filled
  have plainWord : PlainWord (endWord keyword) := plainWord_endWord known
  simp only [List.cons_append]
  rw [Bool.eq_iff_iff, startsTag_append_leftBrace_iff plainWord filled,
    startsTag_append_leftBrace_iff plainWord filled]

/-- More text may be put after a closing delimiter. -/
theorem exchanges_of_closer {mark : List UInt8} (trim : TrimMark mark) (delimiter : Delimiter)
    (back : List UInt8) :
    Exchanges (mark ++ delimiter.closeBytes) (mark ++ delimiter.closeBytes ++ back) := by
  constructor
  · rw [Delimiter.closeBytes_eq]
    rcases trim with rfl | ⟨byte, marked, rfl⟩
    · exact ⟨_, _, [], back, rfl, rfl, fun marked => by
        rw [delimiter.isTrimMark_closeMark] at marked
        cases marked⟩
    · exact ⟨_, _, _, _, rfl, rfl, fun _ => rfl⟩
  · intro keyword known before _
    have braced : before ++ (mark ++ delimiter.closeBytes) =
        before ++ (mark ++ [delimiter.closeMark]) ++ [Byte.rightBrace] := by
      simp [Delimiter.closeBytes_eq]
    rw [Bool.eq_iff_iff, ← List.append_assoc before _ back, braced,
      startsTag_append_rightBrace_iff (plainWord_endWord known) (rightBrace_not_mem_endWord known)]

namespace Lexeme

/-- A closing delimiter is read without regard to what follows it. -/
theorem next_append_of_closing {mode : Mode} {byte : UInt8} {tail : List UInt8}
    {delimiter : Delimiter} (closes : (next mode byte tail).1.kind = .closing delimiter)
    (back : List UInt8) : next mode byte (tail ++ back) = next mode byte tail := by
  have unmarked (byte : UInt8) (tail : List UInt8) :
      (ofMarkup byte tail).1.kind ≠ .closing delimiter := by
    rw [ofMarkup]
    split <;> simp [opening, raw]
  have code {opened : Delimiter} {depth : Nat} {content : List UInt8}
      (closes : (ofCode opened depth content byte tail).1.kind = .closing delimiter) :
      ofCode opened depth content byte (tail ++ back) = ofCode opened depth content byte tail := by
    have takes := takesCode_ofCode opened depth content byte tail
    generalize ofCode opened depth content byte tail = taken at takes closes ⊢
    cases takes with
    | closes outside closer =>
        exact TakesCode.eq_ofCode (.closes outside (Delimiter.startsClose_append closer back))
    | quoted => cases closes
    | unclosed => cases closes
    | opens => cases closes
    | runs => cases closes
  cases mode with
  | markup => exact absurd closes (unmarked byte tail)
  | verbatim keyword =>
      rw [next, ofVerbatim] at closes
      split at closes
      · exact absurd closes (unmarked byte tail)
      · cases closes
  | region opened depth content =>
      cases opened with
      | tag => exact code closes
      | expression => exact code closes
      | comment =>
          rw [next, ofComment] at closes
          split at closes
          · rename_i closer
            have longer : Delimiter.comment.startsClose (byte :: (tail ++ back)) = true :=
              Delimiter.startsClose_append closer back
            rw [next, next, ofComment, ofComment, if_pos closer, if_pos longer]
          · cases closes

/-- A closing delimiter at the end of a text is all that is left of it. -/
theorem exists_of_closing {delimiter : Delimiter} {byte : UInt8} {tail content : List UInt8}
    (closes : delimiter.startsClose (byte :: tail) = true)
    (ends : tail.drop (closing delimiter byte content).1.extra = []) :
    ∃ mark, TrimMark mark ∧ byte :: tail = mark ++ delimiter.closeBytes := by
  obtain ⟨mark, trim, rest, split⟩ := Delimiter.startsClose_iff.mp closes
  rw [Delimiter.closeBytes_eq] at split ⊢
  refine ⟨mark, trim, ?_⟩
  rcases trim with rfl | ⟨first, marked, rfl⟩
  · obtain ⟨rfl, rfl⟩ := List.cons.inj split.symm
    simp only [closing, delimiter.isTrimMark_closeMark] at ends
    have none : rest = [] := ends
    rw [none]
    rfl
  · obtain ⟨rfl, rfl⟩ := List.cons.inj split.symm
    simp only [closing, marked, if_true] at ends
    have none : rest = [] := ends
    rw [none]
    rfl

end Lexeme

/-- A text that ends with a closing delimiter is read in the same way when more text follows. -/
theorem Reads.append_of_closing {front : List UInt8} {lexemes : List Lexeme} {lexeme : Lexeme}
    {final : Mode} {delimiter : Delimiter} (reads : Reads .markup front lexemes final [])
    (is_last : lexeme ∈ lexemes.getLast?) (closes : lexeme.kind = .closing delimiter)
    (back : List UInt8) : Reads .markup (front ++ back) lexemes final back := by
  obtain ⟨others, rfl⟩ := List.getLast?_eq_some_iff.mp is_last
  obtain ⟨middle, earlier, byte, tail, first, split, -, taken, fits, ends, -⟩ :=
    reads.exists_last (List.append_nil front).symm
  have kind : (next middle byte tail).1.kind = .closing delimiter := by rwa [taken]
  obtain ⟨closer, inside, closed⟩ := startsClose_of_kind kind
  have extra_eq : (closing delimiter byte inside).1.extra = lexeme.extra := by rw [← closed, taken]
  obtain ⟨mark, trim, tail_eq⟩ := exists_of_closing closer (by rw [extra_eq, ← ends])
  have exchanges := exchanges_of_closer trim delimiter back
  rw [← tail_eq] at exchanges
  rw [split] at first ⊢
  have further := first.exchange exchanges trivial fun _ _ keyword _ _ _ _ starts => by
    obtain ⟨rest, brace⟩ := Delimiter.opener?_eq_some_iff.mp (opener?_of_startsTag starts)
    rw [Delimiter.openBytes_eq] at brace
    rw [← (List.cons.inj brace).1, not_startsClose_of_leftBrace] at closer
    cases closer
  rw [List.append_assoc]
  refine further.append (.step ((next_append_of_closing kind back).trans taken) ?_)
  rw [List.append_eq, List.drop_append_of_le_length fits, ← ends]
  exact .done final back

end TwigTemplate
