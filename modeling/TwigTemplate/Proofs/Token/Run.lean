import TwigTemplate.Proofs.Source
import TwigTemplate.Token.Lexeme

/-!
# Readings of a template as runs

A run takes lexemes off the bytes that remain, one at a time.  Runs come apart, every text has a run
to its end, and the tokens of a template are the lexemes of such a run at their offsets.
-/

namespace TwigTemplate

/-- Where a text is split in two ways, the longer first part goes on from the shorter one. -/
theorem exists_more_of_append_eq {front back before behind : List UInt8}
    (same : front ++ back = before ++ behind) (longer : before.length ≤ front.length) :
    ∃ more, front = before ++ more ∧ behind = more ++ back := by
  have begins : before <+: front :=
    List.prefix_of_prefix_length_le (same ▸ List.prefix_append before behind)
      (List.prefix_append front back) longer
  obtain ⟨more, rfl⟩ := begins
  rw [List.append_assoc] at same
  exact ⟨more, rfl, (List.append_cancel_left same).symm⟩

/-- Lexemes taken one by one, from a mode and bytes to a mode and the bytes that remain. -/
inductive Reads : Mode → List UInt8 → List Lexeme → Mode → List UInt8 → Prop
  /-- Nothing is taken. -/
  | done (mode : Mode) (bytes : List UInt8) : Reads mode bytes [] mode bytes
  /-- A lexeme is taken first. -/
  | step {mode after final : Mode} {byte : UInt8} {tail rest : List UInt8} {lexeme : Lexeme}
      {lexemes : List Lexeme} (taken : Lexeme.next mode byte tail = (lexeme, after))
      (further : Reads after (tail.drop lexeme.extra) lexemes final rest) :
      Reads mode (byte :: tail) (lexeme :: lexemes) final rest

namespace Lexeme

/-- Length of lexemes that follow each other. -/
def width : List Lexeme → Nat
  | [] => 0
  | lexeme :: lexemes => lexeme.length + width lexemes

@[simp]
theorem width_nil : width [] = 0 := rfl

@[simp]
theorem width_cons (lexeme : Lexeme) (lexemes : List Lexeme) :
    width (lexeme :: lexemes) = lexeme.length + width lexemes := rfl

@[simp]
theorem width_append (left right : List Lexeme) :
    width (left ++ right) = width left + width right := by
  induction left with
  | nil => exact (Nat.zero_add _).symm
  | cons lexeme left ih => rw [List.cons_append, width_cons, ih, width_cons, Nat.add_assoc]

/-- Lexemes are not empty. -/
theorem eq_nil_of_width {lexemes : List Lexeme} (none : width lexemes = 0) : lexemes = [] := by
  cases lexemes with
  | nil => rfl
  | cons lexeme lexemes =>
      rw [width_cons, length] at none
      omega

/-- Lexemes that follow each other from an offset on, as tokens. -/
def placeAll (start : Nat) : List Lexeme → List Token
  | [] => []
  | lexeme :: lexemes => lexeme.place start :: placeAll (start + lexeme.length) lexemes

theorem placeAll_append (start : Nat) (left right : List Lexeme) :
    placeAll start (left ++ right) =
      placeAll start left ++ placeAll (start + width left) right := by
  induction left generalizing start with
  | nil => rfl
  | cons lexeme left ih => simp [placeAll, ih, Nat.add_assoc]

/-- A token among those of lexemes is one of the lexemes at its offset. -/
theorem exists_of_placeAll_eq {start : Nat} {lexemes : List Lexeme} {before after : List Token}
    {token : Token} (split : placeAll start lexemes = before ++ token :: after) :
    ∃ left lexeme right, lexemes = left ++ lexeme :: right ∧ before = placeAll start left ∧
      token = lexeme.place (start + width left) ∧
      after = placeAll (start + width left + lexeme.length) right := by
  induction before generalizing start lexemes with
  | nil =>
      cases lexemes with
      | nil => cases split
      | cons lexeme lexemes =>
          obtain ⟨rfl, rfl⟩ := List.cons.inj split
          exact ⟨[], lexeme, lexemes, rfl, rfl, rfl, rfl⟩
  | cons first before ih =>
      cases lexemes with
      | nil => cases split
      | cons lexeme lexemes =>
          obtain ⟨rfl, further⟩ := List.cons.inj split
          obtain ⟨left, other, right, rfl, rfl, rfl, rfl⟩ := ih further
          exact ⟨lexeme :: left, other, right, rfl, rfl, by simp [Nat.add_assoc],
            by simp [Nat.add_assoc]⟩

theorem stop_mem_placeAll {start : Nat} {lexemes : List Lexeme} {token : Token}
    (member : token ∈ placeAll start lexemes) :
    start < token.span.stop ∧ token.span.stop ≤ start + width lexemes := by
  induction lexemes generalizing start with
  | nil => cases member
  | cons lexeme lexemes ih =>
      rw [width_cons]
      rcases List.mem_cons.mp member with rfl | member
      · simp only [place, length]
        omega
      · have bounds := ih member
        omega

end Lexeme

namespace Token

/-- The token further on in the text. -/
def shift (offset : Nat) (token : Token) : Token :=
  { token with span := ⟨offset + token.span.start, offset + token.span.stop⟩ }

end Token

namespace Lexeme

theorem map_kind_placeAll (start : Nat) (lexemes : List Lexeme) :
    (placeAll start lexemes).map (·.kind) = lexemes.map (·.kind) := by
  induction lexemes generalizing start with
  | nil => rfl
  | cons lexeme lexemes ih => exact congrArg (lexeme.kind :: ·) (ih _)

theorem shift_placeAll (offset start : Nat) (lexemes : List Lexeme) :
    (placeAll start lexemes).map (Token.shift offset) = placeAll (offset + start) lexemes := by
  induction lexemes generalizing start with
  | nil => rfl
  | cons lexeme lexemes ih =>
      simp [placeAll, ih, place, Token.shift, Nat.add_assoc]

section Split

variable (left right : List Lexeme)

/-- The tokens up to an offset between two lexemes. -/
theorem filter_placeAll_le :
    (placeAll 0 (left ++ right)).filter (·.span.stop ≤ width left) = placeAll 0 left := by
  rw [placeAll_append, List.filter_append, List.filter_eq_self.mpr, List.filter_eq_nil_iff.mpr,
    List.append_nil]
  all_goals
    intro token member
    have bounds := stop_mem_placeAll member
    rw [decide_eq_true_iff]
    omega

/-- The tokens past an offset between two lexemes. -/
theorem filter_placeAll_lt :
    (placeAll 0 (left ++ right)).filter (width left < ·.span.stop) =
      placeAll (width left) right := by
  rw [placeAll_append, List.filter_append, List.filter_eq_nil_iff.mpr, List.filter_eq_self.mpr,
    List.nil_append, Nat.zero_add]
  all_goals
    intro token member
    have bounds := stop_mem_placeAll member
    rw [decide_eq_true_iff]
    omega

end Split

end Lexeme

namespace Reads

open Lexeme

variable {mode middle final : Mode} {bytes between rest : List UInt8} {left right : List Lexeme}

theorem exists_of_append (reads : Reads mode bytes (left ++ right) final rest) :
    ∃ middle between, Reads mode bytes left middle between ∧
      Reads middle between right final rest := by
  induction left generalizing mode bytes with
  | nil => exact ⟨mode, bytes, .done mode bytes, reads⟩
  | cons lexeme left ih =>
      cases reads with
      | step taken further =>
          obtain ⟨middle, between, first, last⟩ := ih further
          exact ⟨middle, between, .step taken first, last⟩

/-- A run that starts where another one stops continues it. -/
theorem append (first : Reads mode bytes left middle between)
    (last : Reads middle between right final rest) :
    Reads mode bytes (left ++ right) final rest := by
  induction first with
  | done => exact last
  | step taken _ ih => exact .step taken (ih last)

theorem of_nil (reads : Reads mode bytes [] final rest) : final = mode ∧ rest = bytes := by
  cases reads
  exact ⟨rfl, rfl⟩

theorem of_singleton {lexeme : Lexeme} (reads : Reads mode bytes [lexeme] final rest) :
    ∃ byte tail, bytes = byte :: tail ∧ next mode byte tail = (lexeme, final) ∧
      rest = tail.drop lexeme.extra := by
  cases reads with
  | step taken further =>
      obtain ⟨rfl, rfl⟩ := further.of_nil
      exact ⟨_, _, rfl, taken, rfl⟩

/-- The first lexeme of a run is the one that is read from its first mode. -/
theorem exists_first {lexemes : List Lexeme} {lexeme : Lexeme}
    (reads : Reads mode bytes lexemes final rest) (first : lexeme ∈ lexemes.head?) :
    ∃ byte tail, bytes = byte :: tail ∧ (next mode byte tail).1 = lexeme := by
  cases reads with
  | done => cases first
  | step taken further =>
      obtain rfl := Option.some.inj first
      exact ⟨_, _, rfl, congrArg Prod.fst taken⟩

/-- What has been taken comes before what remains, and is as long as the lexemes. -/
theorem exists_taken {lexemes : List Lexeme} (reads : Reads mode bytes lexemes final rest) :
    ∃ front, bytes = front ++ rest ∧ front.length = width lexemes := by
  induction reads with
  | done mode bytes => exact ⟨[], rfl, rfl⟩
  | @step mode after final byte tail rest lexeme lexemes taken further ih =>
      obtain ⟨front, split, long⟩ := ih
      have fits : lexeme.extra ≤ tail.length := by
        have bound := next_extra_le mode byte tail
        rwa [taken] at bound
      refine ⟨byte :: (tail.take lexeme.extra ++ front), ?_, ?_⟩
      · rw [List.cons_append, List.append_assoc, ← split, List.take_append_drop]
      · simp only [List.length_cons, List.length_append, List.length_take, width_cons, long, length]
        omega

/-- The last lexeme of a run, and the bytes it takes. -/
theorem exists_last {lexemes : List Lexeme} {lexeme : Lexeme} {front : List UInt8}
    (reads : Reads mode bytes (lexemes ++ [lexeme]) final rest) (split : bytes = front ++ rest) :
    ∃ middle earlier byte tail, Reads mode bytes lexemes middle (byte :: tail) ∧
      bytes = earlier ++ byte :: tail ∧ earlier.length = width lexemes ∧
      next middle byte tail = (lexeme, final) ∧ lexeme.extra ≤ tail.length ∧
      rest = tail.drop lexeme.extra ∧ front = earlier ++ byte :: tail.take lexeme.extra := by
  obtain ⟨middle, between, first, last⟩ := reads.exists_of_append
  obtain ⟨earlier, earlier_split, earlier_long⟩ := first.exists_taken
  obtain ⟨byte, tail, rfl, taken, rfl⟩ := last.of_singleton
  refine ⟨middle, earlier, byte, tail, first, earlier_split, earlier_long, taken, ?_, rfl,
    ?_⟩
  · have bound := next_extra_le middle byte tail
    rwa [taken] at bound
  · rw [split] at earlier_split
    have whole : front ++ tail.drop lexeme.extra =
        (earlier ++ byte :: tail.take lexeme.extra) ++ tail.drop lexeme.extra := by
      rw [earlier_split, List.append_assoc, List.cons_append, List.take_append_drop]
    exact List.append_cancel_right whole

theorem length_eq {lexemes : List Lexeme} (reads : Reads mode bytes lexemes final rest) :
    bytes.length = width lexemes + rest.length := by
  obtain ⟨front, rfl, long⟩ := reads.exists_taken
  rw [List.length_append, long]

/-- The first lexeme of a run lies before what the run leaves. -/
theorem exists_front {byte : UInt8} {tail front : List UInt8} {extra : Nat}
    {lexemes : List Lexeme} (further : Reads mode (tail.drop extra) lexemes final rest)
    (filled : rest ≠ []) (whole : front ++ rest = byte :: tail) :
    ∃ others, front = byte :: others ∧ tail = others ++ rest ∧ extra ≤ others.length := by
  have long := further.length_eq
  have behind := List.length_pos_iff.mpr filled
  rw [List.length_drop] at long
  cases front with
  | nil =>
      rw [List.nil_append] at whole
      rw [whole, List.length_cons] at long
      omega
  | cons first others =>
      obtain ⟨rfl, rfl⟩ := List.cons.inj whole
      refine ⟨others, rfl, rfl, ?_⟩
      rw [List.append_eq, List.length_append] at long
      omega

/-- Every text has a run to its end. -/
theorem exists_to_end (mode : Mode) (bytes : List UInt8) :
    ∃ lexemes final, Reads mode bytes lexemes final [] := by
  match bytes with
  | [] => exact ⟨[], mode, .done mode []⟩
  | byte :: tail =>
    obtain ⟨lexemes, final, further⟩ := exists_to_end (next mode byte tail).2
      (tail.drop (next mode byte tail).1.extra)
    exact ⟨_, final, .step rfl further⟩
termination_by bytes.length
decreasing_by
  simp only [List.length_cons, List.length_drop]
  omega

theorem toList_collect {lexemes : List Lexeme} (reads : Reads mode bytes lexemes final [])
    (start : Nat) : (Token.collect mode start #[] bytes).toList = placeAll start lexemes := by
  generalize finished : ([] : List UInt8) = rest at reads
  induction reads generalizing start with
  | done mode bytes =>
      subst finished
      rw [Token.collect_nil]
      rfl
  | step taken further ih =>
      rw [Token.collect_cons, Token.collect_eq_append, taken, Array.toList_append, ih _ finished]
      rfl

end Reads

theorem Source.toList_tokens {source : Source} {lexemes : List Lexeme} {final : Mode}
    (reads : Reads .markup source.toList lexemes final []) :
    source.tokens.toList = Lexeme.placeAll 0 lexemes :=
  reads.toList_collect 0

theorem Source.width_eq_size {source : Source} {lexemes : List Lexeme} {final : Mode}
    (reads : Reads .markup source.toList lexemes final []) :
    Lexeme.width lexemes = source.size := by
  rw [size_eq_length, reads.length_eq, List.length_nil, Nat.add_zero]

end TwigTemplate
