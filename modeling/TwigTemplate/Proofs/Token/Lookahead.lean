import TwigTemplate.Proofs.Delimiter
import TwigTemplate.Proofs.Token.Run

/-!
# Lexemes do not depend on far bytes

A lexeme that fits into the bytes at hand is read there as it is read when more bytes follow.  The
tests that end a lexeme look ahead, so where such a test succeeds it must be known to succeed on the
bytes at hand already.
-/

namespace TwigTemplate

/-- A test that succeeds on bytes also succeeds when more bytes follow. -/
def Lasting (stop : List UInt8 → Bool) : Prop :=
  ∀ bytes back, stop bytes = true → stop (bytes ++ back) = true

/-- Where the test succeeds because of what follows the bytes at hand, it succeeds on them alone,
unless there are none. -/
def Decided (stop : List UInt8 → Bool) (front back : List UInt8) : Prop :=
  front ≠ [] → stop (front ++ back) = true → stop front = true

theorem distanceTo_append {stop : List UInt8 → Bool} {front back : List UInt8}
    (lasting : Lasting stop) (fits : distanceTo stop (front ++ back) ≤ front.length)
    (decided : Decided stop (front.drop (distanceTo stop (front ++ back))) back) :
    distanceTo stop front = distanceTo stop (front ++ back) := by
  induction front with
  | nil => exact (Nat.le_zero.mp fits).symm
  | cons byte tail ih =>
      rw [List.cons_append, distanceTo_cons] at fits decided ⊢
      rw [distanceTo_cons]
      by_cases stops : stop (byte :: (tail ++ back)) = true
      · rw [if_pos stops] at decided ⊢
        exact if_pos (decided (List.cons_ne_nil _ _) stops)
      · rw [if_neg stops] at fits decided ⊢
        rw [if_neg fun early => stops (lasting _ back early), ih (by simpa using fits) decided]

/-- The test succeeds first after so many bytes, or nowhere. -/
theorem exists_distanceTo (stop : List UInt8 → Bool) (bytes : List UInt8) :
    ∃ run rest, bytes = run ++ rest ∧ run.length = distanceTo stop bytes ∧
      (rest = [] ∨ stop rest = true) ∧
      ∀ earlier later, run = earlier ++ later → later ≠ [] → stop (later ++ rest) = false := by
  induction bytes with
  | nil => exact ⟨[], [], rfl, rfl, .inl rfl, by simp⟩
  | cons byte tail ih =>
      rw [distanceTo_cons]
      split
      · rename_i stops
        exact ⟨[], byte :: tail, rfl, rfl, .inr stops, by simp⟩
      · rename_i goes_on
        obtain ⟨run, rest, rfl, long, stops, before⟩ := ih
        refine ⟨byte :: run, rest, rfl, by rw [List.length_cons, long], stops, ?_⟩
        intro earlier later split filled
        cases earlier with
        | nil =>
            subst split
            exact Bool.eq_false_iff.mpr goes_on
        | cons first earlier => exact before earlier later (List.cons.inj split).2 filled

namespace Delimiter

theorem lasting_startsClose (delimiter : Delimiter) : Lasting delimiter.startsClose :=
  fun _ back closes => startsClose_append closes back

theorem lasting_opener : Lasting (opener? · |>.isSome) := by
  intro bytes back opens
  obtain ⟨delimiter, found⟩ := Option.isSome_iff_exists.mp opens
  exact Option.isSome_iff_exists.mpr ⟨delimiter, opener?_append found back⟩

end Delimiter

namespace Literal

theorem remainder?_go_append {quote : UInt8} {hidden : Bool} {front back : List UInt8}
    {passed length : Nat} (closed : remainder?.go quote hidden (front ++ back) passed = some length)
    (fits : length ≤ passed + front.length) :
    remainder?.go quote hidden front passed = some length := by
  induction front generalizing hidden passed with
  | nil =>
      have bounds := remainder?_go_bounds quote hidden back passed length closed
      exact absurd fits (Nat.not_le.mpr bounds.1)
  | cons byte tail ih =>
      rw [List.length_cons] at fits
      simp only [List.cons_append, remainder?.go] at closed ⊢
      split at closed
      · rename_i skipped
        rw [if_pos skipped]
        exact ih closed (by omega)
      rename_i plain
      rw [if_neg plain]
      split at closed
      · rename_i hides
        rw [if_pos hides]
        exact ih closed (by omega)
      rename_i shows
      rw [if_neg shows]
      split at closed
      · rename_i closes
        rw [if_pos closes, closed]
      · rename_i inside
        rw [if_neg inside]
        exact ih closed (by omega)

theorem remainder?_append {quote : UInt8} {front back : List UInt8} {length : Nat}
    (closed : remainder? quote (front ++ back) = some length) (fits : length ≤ front.length) :
    remainder? quote front = some length :=
  remainder?_go_append closed (by rwa [Nat.zero_add])

end Literal

namespace Lexeme

/-- An opening delimiter is as long as its two bytes and its trim mark. -/
theorem opening_append {delimiter : Delimiter} {front back : List UInt8}
    (fits : (opening delimiter (front ++ back)).1.extra ≤ front.length) :
    opening delimiter front = opening delimiter (front ++ back) := by
  match front with
  | [] =>
    simp only [opening] at fits
    split at fits <;> simp at fits
  | [mark] =>
    cases marked : back.head?.any Byte.isTrimMark with
    | false => simp [opening, marked]
    | true => simp [opening, marked] at fits
  | _ :: _ :: _ => rfl

theorem opener?_of_fits {delimiter : Delimiter} {byte : UInt8} {front back : List UInt8}
    (opens : Delimiter.opener? (byte :: (front ++ back)) = some delimiter)
    (fits : (opening delimiter (front ++ back)).1.extra ≤ front.length) :
    Delimiter.opener? (byte :: front) = some delimiter := by
  match front with
  | [] =>
    simp only [opening] at fits
    split at fits <;> simp at fits
  | _ :: _ => exact opens

/-- A closing delimiter that fits is seen. -/
theorem startsClose_of_fits {delimiter : Delimiter} {byte : UInt8} {front back content : List UInt8}
    (closes : delimiter.startsClose (byte :: (front ++ back)) = true)
    (fits : (closing delimiter byte content).1.extra ≤ front.length) :
    delimiter.startsClose (byte :: front) = true := by
  match front with
  | [] =>
    simp only [closing] at fits
    split at fits <;> simp at fits
  | [mark] =>
    simp only [closing] at fits
    have plain : Byte.isTrimMark byte = false := by
      rw [Bool.eq_false_iff]
      intro marked
      rw [if_pos marked] at fits
      exact absurd fits (Nat.not_succ_le_self 1)
    simpa [Delimiter.startsClose, Delimiter.startsBareClose, plain] using closes
  | _ :: _ :: _ => simpa [Delimiter.startsClose, Delimiter.startsBareClose] using closes

theorem ofMarkup_append_of_opener {delimiter : Delimiter} {byte : UInt8} {front back : List UInt8}
    (opens : Delimiter.opener? (byte :: (front ++ back)) = some delimiter)
    (fits : (ofMarkup byte (front ++ back)).1.extra ≤ front.length) :
    ofMarkup byte front = ofMarkup byte (front ++ back) := by
  have opened : ofMarkup byte (front ++ back) = opening delimiter (front ++ back) := by
    rw [ofMarkup, opens]
  rw [opened] at fits ⊢
  rw [ofMarkup, opener?_of_fits opens fits]
  exact opening_append fits

theorem ofMarkup_append {byte : UInt8} {front back : List UInt8}
    (fits : (ofMarkup byte (front ++ back)).1.extra ≤ front.length)
    (decided : (ofMarkup byte (front ++ back)).2 = .markup →
      Decided (Delimiter.opener? · |>.isSome)
        (front.drop (ofMarkup byte (front ++ back)).1.extra) back) :
    ofMarkup byte front = ofMarkup byte (front ++ back) := by
  cases opens : Delimiter.opener? (byte :: (front ++ back)) with
  | some delimiter => exact ofMarkup_append_of_opener opens fits
  | none =>
      have plain : Delimiter.opener? (byte :: front) = none := by
        rw [Option.eq_none_iff_forall_ne_some]
        intro delimiter early
        rw [← List.cons_append, Delimiter.opener?_append early back] at opens
        cases opens
      have run : ofMarkup byte (front ++ back) =
          (raw (distanceTo (Delimiter.opener? · |>.isSome) (front ++ back)), .markup) := by
        rw [ofMarkup, opens]
      rw [run] at fits decided ⊢
      rw [ofMarkup, plain]
      dsimp only
      rw [distanceTo_append Delimiter.lasting_opener fits (decided rfl)]

theorem ofComment_append {byte : UInt8} {front back : List UInt8}
    (fits : (ofComment byte (front ++ back)).1.extra ≤ front.length)
    (decided : (ofComment byte (front ++ back)).2 = .region .comment 0 [] →
      Decided Delimiter.comment.startsClose
        (front.drop (ofComment byte (front ++ back)).1.extra) back) :
    ofComment byte front = ofComment byte (front ++ back) := by
  by_cases closes : Delimiter.comment.startsClose (byte :: (front ++ back)) = true
  · have closed : ofComment byte (front ++ back) = closing .comment byte [] := by
      rw [ofComment, if_pos closes]
    rw [closed] at fits ⊢
    rw [ofComment, if_pos (startsClose_of_fits closes fits)]
  · have open_front : ¬ Delimiter.comment.startsClose (byte :: front) = true := fun early =>
      closes (Delimiter.lasting_startsClose _ _ back early)
    have run : ofComment byte (front ++ back) =
        (raw (distanceTo Delimiter.comment.startsClose (front ++ back)),
          .region .comment 0 []) := by
      rw [ofComment, if_neg closes]
    rw [run] at fits decided ⊢
    rw [ofComment, if_neg open_front,
      distanceTo_append (Delimiter.lasting_startsClose _) fits (decided rfl)]

theorem lasting_endsRun (delimiter : Delimiter) (depth : Nat) :
    Lasting (endsRun delimiter depth) := by
  intro bytes back ends
  simp only [endsRun, Bool.or_eq_true, Bool.and_eq_true, Option.any_eq_true] at ends ⊢
  rcases ends with (⟨byte, first, quoted⟩ | ⟨outside, closes⟩) | ⟨other, opens, differs⟩
  · exact .inl (.inl ⟨byte, by simp [List.head?_append, first], quoted⟩)
  · exact .inl (.inr ⟨outside, Delimiter.lasting_startsClose _ _ back closes⟩)
  · exact .inr ⟨other, Delimiter.opener?_append opens back, differs⟩

theorem le_codeRun_extra (delimiter : Delimiter) (depth : Nat) (content : List UInt8) (extra : Nat)
    (bytes : List UInt8) : extra ≤ (codeRun delimiter depth content extra bytes).1.extra := by
  induction bytes generalizing depth content extra with
  | nil => exact Nat.le_refl extra
  | cons byte tail ih =>
      rw [codeRun]
      split
      · exact Nat.le_refl extra
      · exact Nat.le_of_succ_le (ih _ _ _)

theorem codeRun_append {delimiter : Delimiter} {depth : Nat} {content : List UInt8} {extra : Nat}
    {front back : List UInt8}
    (fits : (codeRun delimiter depth content extra (front ++ back)).1.extra ≤ extra + front.length)
    (decided : ∀ later inside,
      (codeRun delimiter depth content extra (front ++ back)).2 = .region delimiter later inside →
        Decided (endsRun delimiter later)
          (front.drop ((codeRun delimiter depth content extra (front ++ back)).1.extra - extra))
          back) :
    codeRun delimiter depth content extra front =
      codeRun delimiter depth content extra (front ++ back) := by
  induction front generalizing depth content extra with
  | nil =>
      cases back with
      | nil => rfl
      | cons next rest =>
          rw [List.nil_append, codeRun] at fits ⊢
          split
          · rfl
          · rename_i runs
            rw [if_neg runs] at fits
            exact absurd (Nat.le_trans (le_codeRun_extra _ _ _ _ _) fits) (Nat.not_succ_le_self _)
  | cons byte tail ih =>
      rw [List.cons_append, codeRun] at fits decided ⊢
      rw [codeRun]
      by_cases ends : endsRun delimiter depth (byte :: (tail ++ back)) = true
      · rw [if_pos ends] at decided ⊢
        have here := decided depth content rfl
        rw [show (raw extra).extra - extra = 0 from Nat.sub_self extra, List.drop_zero] at here
        exact if_pos (here (List.cons_ne_nil _ _) ends)
      · rw [if_neg ends] at fits decided ⊢
        rw [if_neg fun early => ends (lasting_endsRun delimiter depth _ back early)]
        refine ih (by rw [List.length_cons] at fits; omega) ?_
        intro later inside mode
        have here := decided later inside mode
        have further := le_codeRun_extra delimiter (depthAfter delimiter depth byte)
          (byte :: content) (extra + 1) (tail ++ back)
        generalize (codeRun delimiter (depthAfter delimiter depth byte) (byte :: content)
          (extra + 1) (tail ++ back)).1.extra = reached at here further ⊢
        rwa [show reached - extra = reached - (extra + 1) + 1 by omega, List.drop_succ_cons] at here

section Code

variable {delimiter : Delimiter} {depth : Nat} {content : List UInt8} {byte : UInt8}
  {front back : List UInt8}

/-- A literal that fits is closed at hand; one that is not closed takes all the bytes there are. -/
theorem ofCode_append_of_isQuote (quoted : Byte.isQuote byte = true) (more : back ≠ [])
    (fits : (ofCode delimiter depth content byte (front ++ back)).1.extra ≤ front.length) :
    ofCode delimiter depth content byte front =
      ofCode delimiter depth content byte (front ++ back) := by
  rw [ofCode, if_pos quoted] at fits ⊢
  rw [ofCode, if_pos quoted]
  cases closed : Literal.remainder? byte (front ++ back) with
  | none =>
      rw [closed] at fits
      have longer : 0 < back.length := List.length_pos_iff.mpr more
      simp only [raw, List.length_append] at fits
      omega
  | some extra =>
      rw [closed] at fits
      rw [Literal.remainder?_append closed fits]
      dsimp only at fits ⊢
      rw [List.take_append_of_le_length fits]

theorem ofCode_append_of_startsClose (plain : ¬ Byte.isQuote byte = true)
    (closes : (depth == 0 && delimiter.startsClose (byte :: (front ++ back))) = true)
    (fits : (ofCode delimiter depth content byte (front ++ back)).1.extra ≤ front.length) :
    ofCode delimiter depth content byte front =
      ofCode delimiter depth content byte (front ++ back) := by
  rw [ofCode, if_neg plain, if_pos closes] at fits
  have closes_front : (depth == 0 && delimiter.startsClose (byte :: front)) = true := by
    rw [Bool.and_eq_true] at closes ⊢
    exact ⟨closes.1, startsClose_of_fits closes.2 fits⟩
  rw [ofCode, if_neg plain, if_pos closes_front, ofCode, if_neg plain, if_pos closes]

theorem ofCode_append (more : back ≠ [])
    (fits : (ofCode delimiter depth content byte (front ++ back)).1.extra ≤ front.length)
    (decided : ∀ later inside,
      (ofCode delimiter depth content byte (front ++ back)).2 = .region delimiter later inside →
        Decided (endsRun delimiter later)
          (front.drop (ofCode delimiter depth content byte (front ++ back)).1.extra) back) :
    ofCode delimiter depth content byte front =
      ofCode delimiter depth content byte (front ++ back) := by
  by_cases quoted : Byte.isQuote byte = true
  · exact ofCode_append_of_isQuote quoted more fits
  by_cases closes : (depth == 0 && delimiter.startsClose (byte :: (front ++ back))) = true
  · exact ofCode_append_of_startsClose quoted closes fits
  have open_front : ¬ (depth == 0 && delimiter.startsClose (byte :: front)) = true := by
    intro early
    rw [Bool.and_eq_true] at early
    apply closes
    rw [early.1]
    exact Delimiter.lasting_startsClose _ _ back early.2
  rw [ofCode, if_neg quoted, if_neg closes] at fits decided
  rw [ofCode, if_neg quoted, if_neg open_front, ofCode, if_neg quoted, if_neg closes]
  cases opens : (Delimiter.opener? (byte :: (front ++ back))).filter (· != delimiter) with
  | some other =>
      rw [opens] at fits
      obtain ⟨found, differs⟩ := Option.filter_eq_some_iff.mp opens
      rw [Option.filter_eq_some_iff.mpr ⟨opener?_of_fits found fits, differs⟩]
      exact opening_append fits
  | none =>
      have same : (Delimiter.opener? (byte :: front)).filter (· != delimiter) = none := by
        rw [Option.filter_eq_none_iff] at opens ⊢
        intro other early
        exact opens other (Delimiter.opener?_append early back)
      rw [opens] at fits decided
      rw [same]
      exact codeRun_append (by rwa [Nat.zero_add]) decided

end Code

/-- The end tag of a verbatim body. -/
def endWord (keyword : String) : List UInt8 := ("end" ++ keyword).toUTF8.data.toList

theorem opener?_of_startsTag {word bytes : List UInt8} (starts : startsTag word bytes = true) :
    Delimiter.opener? bytes = some .tag := by
  by_cases tag : Delimiter.opener? bytes = some .tag
  · exact tag
  · rw [startsTag, if_neg (by simpa using tag)] at starts
    cases starts

theorem ofVerbatim_of_startsTag {keyword : String} {byte : UInt8} {tail : List UInt8}
    (starts : startsTag (endWord keyword) (byte :: tail) = true) :
    ofVerbatim keyword byte tail = ofMarkup byte tail := if_pos starts

theorem ofVerbatim_of_not_startsTag {keyword : String} {byte : UInt8} {tail : List UInt8}
    (goes_on : ¬ startsTag (endWord keyword) (byte :: tail) = true) :
    ofVerbatim keyword byte tail =
      (raw (distanceTo (startsTag (endWord keyword)) tail), .markup) := if_neg goes_on

/-- A verbatim body is over where its end tag stands, and before that it is a single run. -/
theorem ofVerbatim_cases (keyword : String) (byte : UInt8) (tail : List UInt8) :
    (startsTag (endWord keyword) (byte :: tail) = true ∧
        ofVerbatim keyword byte tail = opening .tag tail) ∨
      ∃ run rest, tail = run ++ rest ∧ ofVerbatim keyword byte tail = (raw run.length, .markup) ∧
        (rest = [] ∨ startsTag (endWord keyword) rest = true) ∧
        ∀ earlier later, byte :: run = earlier ++ later → later ≠ [] →
          startsTag (endWord keyword) (later ++ rest) = false := by
  by_cases starts : startsTag (endWord keyword) (byte :: tail) = true
  · refine .inl ⟨starts, (ofVerbatim_of_startsTag starts).trans ?_⟩
    rw [ofMarkup, opener?_of_startsTag starts]
  · obtain ⟨run, rest, rfl, long, stops, passes⟩ :=
      exists_distanceTo (startsTag (endWord keyword)) tail
    refine .inr ⟨run, rest, rfl, ?_, stops, ?_⟩
    · rw [ofVerbatim_of_not_startsTag starts, long]
    · intro earlier later split filled
      cases earlier with
      | nil =>
          rw [List.nil_append] at split
          rw [← split]
          exact Bool.eq_false_iff.mpr starts
      | cons first earlier => exact passes earlier later (List.cons.inj split).2 filled

theorem ofVerbatim_append {keyword : String} {byte : UInt8} {front back : List UInt8}
    (lasting : Lasting (startsTag (endWord keyword)))
    (fits : (ofVerbatim keyword byte (front ++ back)).1.extra ≤ front.length)
    (first : Decided (startsTag (endWord keyword)) (byte :: front) back)
    (decided : (ofVerbatim keyword byte (front ++ back)).2 = .markup →
      Decided (startsTag (endWord keyword))
        (front.drop (ofVerbatim keyword byte (front ++ back)).1.extra) back) :
    ofVerbatim keyword byte front = ofVerbatim keyword byte (front ++ back) := by
  by_cases starts : startsTag (endWord keyword) (byte :: (front ++ back)) = true
  · rw [ofVerbatim_of_startsTag starts] at fits ⊢
    rw [← ofMarkup_append_of_opener (opener?_of_startsTag starts) fits]
    exact ofVerbatim_of_startsTag (first (List.cons_ne_nil _ _) starts)
  · have open_front : ¬ startsTag (endWord keyword) (byte :: front) = true := fun early =>
      starts (lasting _ back early)
    rw [ofVerbatim_of_not_startsTag starts] at fits decided ⊢
    rw [← distanceTo_append lasting fits (decided rfl)]
    exact ofVerbatim_of_not_startsTag open_front

/-! ### What ends a run of raw bytes -/

theorem kind_codeRun (delimiter : Delimiter) (depth : Nat) (content : List UInt8) (extra : Nat)
    (bytes : List UInt8) : (codeRun delimiter depth content extra bytes).1.kind = .raw := by
  induction bytes generalizing depth content extra with
  | nil => rfl
  | cons byte tail ih =>
      rw [codeRun]
      split
      · rfl
      · exact ih _ _ _

theorem opener?_isSome_iff (byte : UInt8) (tail : List UInt8) :
    (Delimiter.opener? (byte :: tail)).isSome = true ↔ (ofMarkup byte tail).1.kind ≠ .raw := by
  rw [ofMarkup]
  split <;> simp [*, opening, raw]

theorem startsClose_iff (byte : UInt8) (tail : List UInt8) :
    Delimiter.comment.startsClose (byte :: tail) = true ↔ (ofComment byte tail).1.kind ≠ .raw := by
  rw [ofComment]
  split <;> simp [*, closing, raw]

theorem endsRun_iff (delimiter : Delimiter) (depth : Nat) (content : List UInt8) (byte : UInt8)
    (tail : List UInt8) :
    endsRun delimiter depth (byte :: tail) = true ↔
      Byte.isQuote byte = true ∨ (ofCode delimiter depth content byte tail).1.kind ≠ .raw := by
  rw [endsRun, List.head?_cons, Option.any_some, ← Option.isSome_filter, ofCode]
  by_cases quoted : Byte.isQuote byte = true
  · simp [quoted]
  rw [if_neg quoted]
  by_cases closes : (depth == 0 && delimiter.startsClose (byte :: tail)) = true
  · rw [if_pos closes, closes]
    simp [closing]
  rw [if_neg closes, Bool.eq_false_iff.mpr closes, Bool.eq_false_iff.mpr quoted]
  cases (Delimiter.opener? (byte :: tail)).filter (· != delimiter) with
  | some other => simp [opening]
  | none => simp [kind_codeRun]

/-- Where no run ends, one begins. -/
theorem ofCode_of_not_endsRun {delimiter : Delimiter} {depth : Nat} {byte : UInt8}
    {tail : List UInt8} (runs : endsRun delimiter depth (byte :: tail) = false)
    (content : List UInt8) :
    ofCode delimiter depth content byte tail =
      codeRun delimiter (depthAfter delimiter depth byte) (byte :: content) 0 tail := by
  rw [endsRun, List.head?_cons, Option.any_some, ← Option.isSome_filter, Bool.or_eq_false_iff,
    Bool.or_eq_false_iff, Option.isSome_eq_false_iff, Option.isNone_iff_eq_none] at runs
  rw [ofCode, runs.1.1, runs.1.2, runs.2]
  simp

theorem not_isQuote_of_startsClose {delimiter : Delimiter} {byte : UInt8} {tail : List UInt8}
    (closes : delimiter.startsClose (byte :: tail) = true) : Byte.isQuote byte = false := by
  have quotes : Byte.isQuote delimiter.closeMark = false := by cases delimiter <;> decide
  rw [Delimiter.startsClose, Bool.or_eq_true, Bool.and_eq_true] at closes
  rcases closes with bare | ⟨mark, _⟩
  · cases tail with
    | nil => cases bare
    | cons brace rest =>
        rw [Delimiter.startsBareClose, Bool.and_eq_true, beq_iff_eq] at bare
        rw [bare.1, quotes]
  · rw [Byte.isTrimMark, Bool.or_eq_true, beq_iff_eq, beq_iff_eq] at mark
    rcases mark with rfl | rfl <;> decide

/-- A closing delimiter outside all braces ends the region. -/
theorem ofCode_of_startsClose {delimiter : Delimiter} {byte : UInt8} {tail : List UInt8}
    (closes : delimiter.startsClose (byte :: tail) = true) (content : List UInt8) :
    ofCode delimiter 0 content byte tail = closing delimiter byte content := by
  rw [ofCode, not_isQuote_of_startsClose closes, closes]
  rfl

/-- All regions but comments hold code. -/
theorem next_code {delimiter : Delimiter} (code : delimiter ≠ .comment) (depth : Nat)
    (content : List UInt8) (byte : UInt8) (tail : List UInt8) :
    next (.region delimiter depth content) byte tail =
      ofCode delimiter depth content byte tail := by
  cases delimiter with
  | tag => rfl
  | expression => rfl
  | comment => exact absurd rfl code

end Lexeme
end TwigTemplate
