import TwigTemplate.Proofs.Token.Exchange
import TwigTemplate.Proofs.Token.Typed

/-!
# Trim marks on delimiters

A trim mark that is put behind a bare opening delimiter, or before a bare closing one, becomes part
of a delimiter, and all other lexemes stay as they are.  A mark completes no delimiter with the
bytes before it, so what was no end of a run before is none with the mark; where a run or a comment
ended at the closing delimiter, it ends at the mark.
-/

namespace TwigTemplate

open Lexeme

/-! ### A mark among bytes -/

theorem Byte.ne_of_isTrimMark {mark byte : UInt8} (marked : isTrimMark mark = true)
    (other : isTrimMark byte = false) : byte ≠ mark := by
  rintro rfl
  rw [marked] at other
  cases other

theorem Delimiter.isTrimMark_openMark (delimiter : Delimiter) :
    Byte.isTrimMark delimiter.openMark = false := by
  cases delimiter <;> rfl

section Insert

variable {mark : UInt8} (marked : Byte.isTrimMark mark = true) {before rest : List UInt8}
  {delimiter : Delimiter}
include marked

theorem Delimiter.opener?_of_insert (filled : before ≠ [])
    (opens : opener? (before ++ mark :: rest) = some delimiter) :
    opener? (before ++ rest) = some delimiter := by
  match before with
  | [] => exact absurd rfl filled
  | [brace] =>
    rw [opener?_eq_some_iff, openBytes_eq] at opens
    simp only [List.singleton_append, List.cons_prefix_cons, List.nil_prefix, and_true] at opens
    exact absurd opens.2 (Byte.ne_of_isTrimMark marked delimiter.isTrimMark_openMark)
  | _ :: _ :: _ => exact opens

theorem Delimiter.startsBareClose_of_insert
    (closes : delimiter.startsBareClose (before ++ mark :: rest) = true) :
    before ≠ [] ∧ delimiter.startsBareClose (before ++ rest) = true := by
  match before with
  | [] =>
    rw [startsBareClose_iff, closeBytes_eq] at closes
    simp only [List.nil_append, List.cons_prefix_cons] at closes
    exact absurd closes.1 (Byte.ne_of_isTrimMark marked delimiter.isTrimMark_closeMark)
  | [first] =>
    rw [startsBareClose_iff, closeBytes_eq] at closes
    simp only [List.singleton_append, List.cons_prefix_cons, List.nil_prefix, and_true] at closes
    exact absurd closes.2 (Byte.ne_of_isTrimMark marked rfl)
  | _ :: _ :: _ => exact ⟨List.cons_ne_nil _ _, closes⟩

theorem Delimiter.startsClose_of_insert (filled : before ≠ [])
    (closes : delimiter.startsClose (before ++ mark :: rest) = true) :
    delimiter.startsClose (before ++ rest) = true := by
  obtain ⟨byte, others, rfl⟩ := List.exists_cons_of_ne_nil filled
  rw [List.cons_append, startsClose, Bool.or_eq_true, Bool.and_eq_true, ← List.cons_append]
    at closes
  rw [List.cons_append, startsClose, Bool.or_eq_true, Bool.and_eq_true, ← List.cons_append]
  rcases closes with bare | ⟨first, bare⟩
  · exact .inl (startsBareClose_of_insert marked bare).2
  · exact .inr ⟨first, (startsBareClose_of_insert marked bare).2⟩

/-- A mark among code ends no run before it that was not ended there without the mark. -/
theorem Lexeme.endsRun_of_insert {depth : Nat} (filled : before ≠ [])
    (ends : endsRun delimiter depth (before ++ mark :: rest) = true) :
    endsRun delimiter depth (before ++ rest) = true := by
  simp only [endsRun, Bool.or_eq_true, Bool.and_eq_true, Option.any_eq_true] at ends ⊢
  rcases ends with (⟨byte, first, quotes⟩ | ⟨outside, closes⟩) | ⟨other, opens, differs⟩
  · obtain ⟨head, others, rfl⟩ := List.exists_cons_of_ne_nil filled
    exact .inl (.inl ⟨byte, first, quotes⟩)
  · exact .inl (.inr ⟨outside, Delimiter.startsClose_of_insert marked filled closes⟩)
  · exact .inr ⟨other, Delimiter.opener?_of_insert marked filled opens, differs⟩

/-- A closing delimiter takes the mark before it. -/
theorem Delimiter.startsClose_mark (closes : delimiter.startsBareClose rest = true) :
    delimiter.startsClose (mark :: rest) = true := by
  rw [startsClose, marked, closes]
  exact Bool.or_true _

end Insert

/-! ### The body before a closing delimiter -/

/-- Where the test fails at every point of the run and succeeds behind it, the distance is the
length of the run. -/
theorem distanceTo_eq_length {stop : List UInt8 → Bool} {run rest : List UInt8}
    (passes : ∀ earlier later, run = earlier ++ later → later ≠ [] → stop (later ++ rest) = false)
    (filled : rest ≠ []) (stops : stop rest = true) :
    distanceTo stop (run ++ rest) = run.length := by
  induction run with
  | nil =>
      obtain ⟨byte, tail, rfl⟩ := List.exists_cons_of_ne_nil filled
      rw [List.nil_append, distanceTo_cons, if_pos stops]
      rfl
  | cons byte run ih =>
      have goes_on := passes [] (byte :: run) rfl (List.cons_ne_nil _ _)
      rw [List.cons_append] at goes_on
      rw [List.cons_append, distanceTo_cons, goes_on, List.length_cons, ih]
      · rfl
      · rintro earlier later rfl
        exact passes (byte :: earlier) later rfl

/-- The lexeme with a trim mark. -/
def Lexeme.withMark (lexeme : Lexeme) : Lexeme := ⟨lexeme.kind, true, lexeme.extra + 1⟩

/-- Where bytes are taken, a lexeme is. -/
theorem Reads.exists_first_of_more {mode final : Mode} {byte : UInt8} {front rest : List UInt8}
    {lexemes : List Lexeme} (reads : Reads mode (byte :: front ++ rest) lexemes final rest) :
    ∃ lexeme after others, next mode byte (front ++ rest) = (lexeme, after) ∧
      lexemes = lexeme :: others := by
  cases lexemes with
  | nil =>
      have same := congrArg List.length reads.of_nil.2
      rw [List.length_append, List.length_cons] at same
      omega
  | cons lexeme others =>
      cases reads with
      | step taken => exact ⟨lexeme, _, others, taken, rfl⟩

theorem Reads.nil_of_same {mode final : Mode} {bytes : List UInt8} {lexemes : List Lexeme}
    (reads : Reads mode bytes lexemes final bytes) : lexemes = [] ∧ final = mode := by
  cases reads with
  | done => exact ⟨rfl, rfl⟩
  | step taken further =>
      have long := further.length_eq
      rw [List.length_drop, List.length_cons] at long
      omega

section Body

variable {mark : UInt8} (marked : Byte.isTrimMark mark = true) {delimiter : Delimiter}
include marked

theorem Lexeme.Runs.insert {rest more run : List UInt8} {depth later : Nat}
    (runs : Runs delimiter (more ++ rest) depth run later) :
    Runs delimiter (more ++ mark :: rest) depth run later := by
  induction runs with
  | nil depth => exact .nil depth
  | @cons depth later byte run plain _ ih =>
      refine .cons ?_ ih
      rw [Bool.eq_false_iff] at plain ⊢
      intro ends
      rw [← List.append_assoc, ← List.cons_append] at plain ends
      exact plain (endsRun_of_insert marked (List.cons_ne_nil _ _) ends)

variable {byte : UInt8} {front closer : List UInt8} {lexeme : Lexeme} {after : Mode}

/-- A lexeme of code before the mark is taken in the same way, if a run that ended behind it ends
there with the mark as well. -/
theorem Lexeme.ofCode_insert {depth : Nat} {content : List UInt8} (pending : closer ≠ [])
    (taken : ofCode delimiter depth content byte (front ++ closer) = (lexeme, after))
    (inner : lexeme.kind = .raw ∨ lexeme.kind = .quoted) (fits : lexeme.extra ≤ front.length)
    (ends : ∀ later inside, after = .region delimiter later inside →
      endsRun delimiter later (front.drop lexeme.extra ++ closer) = true →
        endsRun delimiter later (front.drop lexeme.extra ++ mark :: closer) = true) :
    ofCode delimiter depth content byte (front ++ mark :: closer) = (lexeme, after) := by
  have takes := takesCode_ofCode delimiter depth content byte (front ++ closer)
  rw [taken] at takes
  generalize whole : front ++ closer = tail at takes
  apply TakesCode.eq_ofCode
  cases takes with
  | @quoted inside rest quotes within =>
      rw [List.append_cons] at whole
      obtain ⟨more, rfl, -⟩ := exists_more_of_append_eq whole (by simpa using fits)
      rw [List.append_assoc, List.append_assoc, List.singleton_append]
      exact .quoted quotes within
  | unclosed =>
      have longer := List.length_pos_iff.mpr pending
      simp only [raw, ← whole, List.length_append] at fits
      omega
  | closes => simp at inner
  | opens => simp at inner
  | @runs run rest later plain stops =>
      obtain ⟨more, rfl, rfl⟩ := exists_more_of_append_eq whole fits
      have stop := ends later _ rfl
      rw [raw, List.drop_left] at stop
      rw [List.append_assoc]
      exact .runs (plain.insert marked) (.inr (stop (stops.resolve_left (by simp [pending]))))

theorem Lexeme.ofComment_insert
    (taken : ofComment byte (front ++ closer) = (lexeme, after))
    (inner : lexeme.kind = .raw ∨ lexeme.kind = .quoted)
    (whole : lexeme.extra = front.length)
    (closes : Delimiter.comment.startsBareClose closer = true) :
    ofComment byte (front ++ mark :: closer) = (lexeme, after) := by
  rw [ofComment] at taken
  split at taken
  · obtain ⟨rfl, -⟩ := Prod.mk.inj taken
    simp at inner
  · rename_i goes_on
    obtain ⟨rfl, rfl⟩ := Prod.mk.inj taken
    obtain ⟨run, rest, split, long, -, passes⟩ :=
      exists_distanceTo Delimiter.comment.startsClose (front ++ closer)
    obtain ⟨rfl, rfl⟩ := List.append_inj split (whole.symm.trans long.symm)
    have past : ∀ earlier later, byte :: front = earlier ++ later → later ≠ [] →
        Delimiter.comment.startsClose (later ++ closer) = false := by
      intro earlier later split filled
      cases earlier with
      | nil =>
          rw [List.nil_append] at split
          rw [← split]
          exact Bool.eq_false_iff.mpr goes_on
      | cons first earlier => exact passes earlier later (List.cons.inj split).2 filled
    have past_mark : ∀ earlier later, byte :: front = earlier ++ later → later ≠ [] →
        Delimiter.comment.startsClose (later ++ mark :: closer) = false := by
      intro earlier later split filled
      rw [Bool.eq_false_iff]
      intro stops
      have early := Delimiter.startsClose_of_insert marked filled stops
      rw [past earlier later split filled] at early
      cases early
    have here := past_mark [] (byte :: front) rfl (List.cons_ne_nil _ _)
    rw [List.cons_append] at here
    have distance := distanceTo_eq_length
      (fun earlier later split => past_mark (byte :: earlier) later (congrArg (byte :: ·) split))
      (List.cons_ne_nil mark closer) (Delimiter.startsClose_mark marked closes)
    rw [ofComment, here, distance, ← long]
    rfl

section Step

variable {depth : Nat} {content others : List UInt8} {first : UInt8} {lexemes : List Lexeme}
  {final : Mode}
  (further : Reads after (front.drop lexeme.extra ++ first :: others) lexemes final
    (first :: others))
  (within : Interior lexemes)
include further within

omit marked in
/-- In a comment nothing comes between a run and the closing delimiter. -/
theorem Lexeme.extra_eq_of_ofComment
    (taken : ofComment byte (front ++ first :: others) = (lexeme, after))
    (inner : lexeme.kind = .raw ∨ lexeme.kind = .quoted) (fits : lexeme.extra ≤ front.length) :
    lexeme.extra = front.length := by
  rw [ofComment] at taken
  split at taken
  · obtain ⟨rfl, -⟩ := Prod.mk.inj taken
    simp at inner
  obtain ⟨rfl, rfl⟩ := Prod.mk.inj taken
  obtain ⟨run, rest, split, long, stops, -⟩ :=
    exists_distanceTo Delimiter.comment.startsClose (front ++ first :: others)
  rw [raw, ← long] at fits further ⊢
  obtain ⟨more, rfl, rfl⟩ := exists_more_of_append_eq split fits
  rw [List.drop_left] at further
  cases more with
  | nil => simp
  | cons next more =>
      have closes := stops.resolve_left (by simp)
      obtain ⟨lexeme, later, rest, taken, rfl⟩ := further.exists_first_of_more
      have closed : ofComment next (more ++ first :: others) = closing .comment next [] :=
        if_pos closes
      rw [Lexeme.next, closed] at taken
      obtain rfl : (closing .comment next []).1 = lexeme := congrArg Prod.fst taken
      have kind := within _ List.mem_cons_self
      simp [closing] at kind

variable (closes : (next final first others).1.kind = .closing delimiter)
  (bare : delimiter.startsBareClose (first :: others) = true)
include closes bare

/-- A run of code that ends before the mark ends at a literal or at the closing delimiter. -/
theorem Lexeme.endsRun_insert (code : delimiter ≠ .comment) {later : Nat} {inside : List UInt8}
    (region : after = .region delimiter later inside)
    (ends : endsRun delimiter later (front.drop lexeme.extra ++ first :: others) = true) :
    endsRun delimiter later (front.drop lexeme.extra ++ mark :: first :: others) = true := by
  subst region
  generalize front.drop lexeme.extra = more at further ends
  cases more with
  | nil =>
      obtain ⟨-, rfl⟩ := further.nil_of_same
      rw [next_code code] at closes
      have outside : later = 0 := by
        have takes := takesCode_ofCode delimiter later inside first others
        generalize ofCode delimiter later inside first others = taken at takes closes
        cases takes with
        | closes outside => exact outside
        | _ => cases closes
      rw [List.nil_append, endsRun, Delimiter.startsClose_mark marked bare, outside]
      simp
  | cons next more =>
      obtain ⟨lexeme, later, rest, taken, rfl⟩ := further.exists_first_of_more
      rw [next_code code] at taken
      have quotes := endsRun_of_inner taken (within lexeme List.mem_cons_self) ends
      rw [List.cons_append, endsRun, List.head?_cons, Option.any_some, quotes]
      rfl

theorem Lexeme.next_insert
    (taken : Lexeme.next (.region delimiter depth content) byte (front ++ first :: others) =
      (lexeme, after))
    (inner : lexeme.kind = .raw ∨ lexeme.kind = .quoted) (fits : lexeme.extra ≤ front.length) :
    Lexeme.next (.region delimiter depth content) byte (front ++ mark :: first :: others) =
      (lexeme, after) := by
  by_cases code : delimiter = .comment
  · subst code
    exact ofComment_insert marked taken inner
      (extra_eq_of_ofComment further within taken inner fits) bare
  · rw [next_code code] at taken ⊢
    exact ofCode_insert marked (List.cons_ne_nil _ _) taken inner fits
      fun later inside region => endsRun_insert marked further within closes bare code region

end Step

/-- The body of a region is read in the same way when a mark is put before the closing delimiter
behind it. -/
theorem Reads.insert_mark {mode final : Mode} {lexemes : List Lexeme} {first : UInt8}
    {others : List UInt8}
    (reads : Reads mode (front ++ first :: others) lexemes final (first :: others))
    (region : mode.region? = some delimiter) (within : Interior lexemes)
    (closes : (next final first others).1.kind = .closing delimiter)
    (bare : delimiter.startsBareClose (first :: others) = true) :
    Reads mode (front ++ mark :: first :: others) lexemes final (mark :: first :: others) := by
  induction lexemes generalizing mode front with
  | nil =>
      obtain ⟨rfl, same⟩ := reads.of_nil
      obtain rfl := List.append_left_eq_self.mp same.symm
      exact .done _ _
  | cons lexeme lexemes ih =>
      rw [Interior, List.forall_mem_cons] at within
      obtain ⟨inner, within⟩ := within
      have long := reads.length_eq
      rw [width_cons, Lexeme.length, List.length_append] at long
      obtain ⟨byte, front, rfl⟩ : ∃ byte tail, front = byte :: tail :=
        List.exists_cons_of_length_pos (by omega)
      rw [List.length_cons] at long
      cases reads with
      | @step _ after _ _ _ _ _ _ taken further =>
          have fits : lexeme.extra ≤ front.length := by omega
          rw [List.append_eq] at taken further
          rw [List.drop_append_of_le_length fits] at further
          have stays : after.region? = some delimiter := by
            have kept := (fits_next mode byte (front ++ first :: others)).2
            rw [taken, region] at kept
            rcases inner with raw | quoted
            · rw [kept, raw]
              rfl
            · rw [kept, quoted]
              rfl
          cases mode with
          | markup => cases region
          | verbatim keyword => cases region
          | region opened depth content =>
          obtain rfl : opened = delimiter := Option.some.inj region
          refine .step (next_insert marked further within closes bare taken inner fits) ?_
          rw [List.append_eq, List.drop_append_of_le_length fits]
          exact ih further stays within

end Body

/-! ### Delimiters that take the mark -/

theorem Lexeme.exists_trimMark_of_unmarked (bytes : List UInt8) :
    ∃ mark rest, TrimMark mark ∧ (mark = [] → rest.head?.any Byte.isTrimMark = false) ∧
      bytes = mark ++ rest := by
  cases bytes with
  | nil => exact ⟨[], [], .inl rfl, fun _ => rfl, rfl⟩
  | cons byte tail =>
      cases marked : Byte.isTrimMark byte with
      | false => exact ⟨[], byte :: tail, .inl rfl, fun _ => marked, rfl⟩
      | true => exact ⟨[byte], tail, .inr ⟨byte, marked, rfl⟩, by simp, rfl⟩

/-- An opening delimiter by its trim mark and what follows it. -/
theorem Lexeme.opening_of_trimMark {mark rest : List UInt8} (trim : TrimMark mark)
    (unmarked : mark = [] → rest.head?.any Byte.isTrimMark = false) (delimiter : Delimiter)
    (byte : UInt8) :
    opening delimiter (byte :: (mark ++ rest)) =
      (⟨.opening delimiter, !mark.isEmpty, mark.length + 1⟩, .region delimiter 0 []) := by
  rcases trim with rfl | ⟨byte, marked, rfl⟩
  · simp [opening, unmarked rfl]
  · simp [opening, marked]

/-- An opening delimiter is read as before where something else follows it, if it is kept in case
it begins an end tag. -/
theorem Lexeme.next_of_opener_of_ends {mode after : Mode} {byte : UInt8} {tail other : List UInt8}
    {lexeme : Lexeme} {delimiter : Delimiter} (sound : mode.Sound)
    (taken : next mode byte tail = (lexeme, after)) (opens : lexeme.kind = .opening delimiter)
    (opener : Delimiter.opener? (byte :: other) = some delimiter)
    (ends : ∀ keyword ∈ verbatimKeywords, startsTag (endWord keyword) (byte :: tail) = true →
      startsTag (endWord keyword) (byte :: other) = true) :
    next mode byte other = opening delimiter other := by
  have kind : (next mode byte tail).1.kind = .opening delimiter := by rwa [taken]
  by_cases verbatim : ∃ keyword, mode = .verbatim keyword
  · obtain ⟨keyword, rfl⟩ := verbatim
    have starts : startsTag (endWord keyword) (byte :: tail) = true := by
      rw [next] at kind
      rcases ofVerbatim_cases keyword byte tail with ⟨starts, -⟩ | ⟨run, rest, -, runs, -⟩
      · exact starts
      · rw [runs] at kind
        cases kind
    rw [next, ofVerbatim_of_startsTag (ends keyword sound starts), ofMarkup, opener]
  · exact next_of_opener (not_exists.mp verbatim) kind opener

theorem Lexeme.closing_mark {byte mark : UInt8} (marked : Byte.isTrimMark mark = true)
    (bare : Byte.isTrimMark byte = false) (delimiter : Delimiter) (content : List UInt8) :
    closing delimiter mark content =
      ((closing delimiter byte content).1.withMark, (closing delimiter byte content).2) := by
  simp [closing, marked, bare, withMark]

/-- Where a closing delimiter is read, any closing delimiter of the kind is. -/
theorem Lexeme.exists_closing {mode : Mode} {byte : UInt8} {tail : List UInt8}
    {delimiter : Delimiter} (closes : (next mode byte tail).1.kind = .closing delimiter) :
    ∃ inside, ∀ first rest, delimiter.startsClose (first :: rest) = true →
      next mode first rest = closing delimiter first inside := by
  have region : mode.region? = some delimiter := by
    have fits := (fits_next mode byte tail).1
    rwa [closes] at fits
  cases mode with
  | markup => cases region
  | verbatim keyword => cases region
  | region opened depth content =>
      obtain rfl := Option.some.inj region
      by_cases code : opened = .comment
      · subst code
        exact ⟨[], fun first rest closer => if_pos closer⟩
      · rw [next_code code] at closes
        have takes := takesCode_ofCode opened depth content byte tail
        generalize ofCode opened depth content byte tail = taken at takes closes
        cases takes with
        | closes outside =>
            subst outside
            refine ⟨content, fun first rest closer => ?_⟩
            rw [next_code code, ofCode_of_startsClose closer]
        | _ => cases closes

/-- An end tag stays one with a mark behind its bare opening delimiter. -/
theorem Lexeme.startsTag_mark {word rest : List UInt8} {first second mark : UInt8}
    (marked : Byte.isTrimMark mark = true) (unmarked : rest.head?.any Byte.isTrimMark = false)
    (starts : startsTag word (first :: second :: rest) = true) :
    startsTag word (first :: second :: mark :: rest) = true := by
  have bare : dropTrimMark rest = rest := dropTrimMark_append (.inl rfl) unmarked
  have behind : dropTrimMark (mark :: rest) = rest := by simp [dropTrimMark, marked]
  rw [startsTag] at starts ⊢
  simp only [List.drop_succ_cons, List.drop_zero, bare, behind] at starts ⊢
  exact starts

/-- A bare closing delimiter takes the mark before it. -/
theorem Lexeme.next_mark {mode after : Mode} {byte mark : UInt8} {tail : List UInt8}
    {lexeme : Lexeme} {delimiter : Delimiter} (marked : Byte.isTrimMark mark = true)
    (taken : next mode byte tail = (lexeme, after)) (closes : lexeme.kind = .closing delimiter)
    (bare : lexeme.trim = false) :
    delimiter.startsBareClose (byte :: tail) = true ∧
      next mode mark (byte :: tail) = (lexeme.withMark, after) := by
  have kind : (next mode byte tail).1.kind = .closing delimiter := by rwa [taken]
  have closer := (startsClose_of_kind kind).1
  obtain ⟨inside, closing_eq⟩ := exists_closing kind
  have closed := taken.symm.trans (closing_eq byte tail closer)
  have same : (closing delimiter byte inside).1 = lexeme := (congrArg Prod.fst closed).symm
  have unmarked : Byte.isTrimMark byte = false := by rwa [← same] at bare
  have stands : delimiter.startsBareClose (byte :: tail) = true := by
    rwa [Delimiter.startsClose, unmarked, Bool.false_and, Bool.or_false] at closer
  refine ⟨stands, ?_⟩
  rw [closing_eq mark _ (Delimiter.startsClose_mark marked stands), closing_mark marked unmarked,
    ← closed]

/-- A bare delimiter has two bytes. -/
theorem Lexeme.length_of_bare {mode after : Mode} {byte : UInt8} {tail : List UInt8}
    {lexeme : Lexeme} {delimiter : Delimiter} (taken : next mode byte tail = (lexeme, after))
    (delimits : lexeme.kind = .opening delimiter ∨ lexeme.kind = .closing delimiter)
    (bare : lexeme.trim = false) : lexeme.length = 2 := by
  have takes := takes_next mode byte tail
  rw [taken] at takes
  cases takes with
  | opens opener =>
      have unmarked : (tail.drop 1).head?.any Byte.isTrimMark = false := bare
      rw [length]
      dsimp only
      rw [unmarked]
      rfl
  | closes region closer code =>
      have unmarked : Byte.isTrimMark byte = false := bare
      simp [unmarked, length]
  | markup => simp [raw] at delimits
  | comment => simp [raw] at delimits
  | code lexeme later region inner =>
      have other := ne_of_inner inner delimiter
      exact absurd delimits (not_or.mpr other)

/-! ### Texts with one more mark -/

namespace Reads

theorem sound {mode final : Mode} {bytes rest : List UInt8} {lexemes : List Lexeme}
    (reads : Reads mode bytes lexemes final rest) (start : mode.Sound) : final.Sound := by
  induction reads with
  | done => exact start
  | @step mode after final byte tail rest lexeme lexemes taken _ ih =>
      apply ih
      have sound := sound_next mode byte tail
      rwa [taken] at sound

variable {mode after final : Mode} {front rest : List UInt8} {left inner right : List Lexeme}
  {lexeme : Lexeme} {delimiter : Delimiter} {mark : UInt8}

/-- A run up to an opening delimiter goes there also when something else follows the two bytes of
the delimiter, if an end tag that begins with it is kept. -/
theorem exists_opening_exchange {bytes : List UInt8}
    (reads : Reads .markup bytes (left ++ [lexeme]) after rest)
    (opens : lexeme.kind = .opening delimiter) :
    ∃ front own, bytes = front ++ (delimiter.openBytes ++ (own ++ rest)) ∧
      front.length = width left ∧ lexeme = ⟨.opening delimiter, !own.isEmpty, own.length + 1⟩ ∧
      after = .region delimiter 0 [] ∧ TrimMark own ∧
      (own = [] → rest.head?.any Byte.isTrimMark = false) ∧
      Reads .markup (delimiter.openBytes ++ (own ++ rest)) [lexeme] (.region delimiter 0 []) rest ∧
      ∀ other later, TrimMark other → (other = [] → later.head?.any Byte.isTrimMark = false) →
        (∀ keyword ∈ verbatimKeywords,
          startsTag (endWord keyword) (delimiter.openBytes ++ (own ++ rest)) = true →
            startsTag (endWord keyword) (delimiter.openBytes ++ (other ++ later)) = true) →
        Reads .markup (front ++ (delimiter.openBytes ++ (other ++ later)))
          (left ++ [⟨.opening delimiter, !other.isEmpty, other.length + 1⟩])
          (.region delimiter 0 []) later := by
  obtain ⟨middle, between, first, last⟩ := reads.exists_of_append
  obtain ⟨front, rfl, long⟩ := first.exists_taken
  obtain ⟨byte, tail, rfl, taken, rfl⟩ := last.of_singleton
  obtain ⟨opener, read⟩ := next_of_opening (by rw [taken]; exact opens)
  have opened : opening delimiter tail = (lexeme, after) := by
    rw [← taken, read, next, ofMarkup, opener]
  obtain ⟨more, split⟩ := Delimiter.opener?_eq_some_iff.mp opener
  rw [Delimiter.openBytes_eq] at split ⊢
  obtain ⟨rfl, rfl⟩ := List.cons.inj split
  obtain ⟨own, rest, trim, unmarked, rfl⟩ := exists_trimMark_of_unmarked more
  obtain ⟨rfl, rfl⟩ := Prod.mk.inj
    ((opening_of_trimMark trim unmarked delimiter delimiter.openMark).symm.trans opened)
  have dropped : ([delimiter.openMark].append (own ++ rest)).drop
      (⟨.opening delimiter, !own.isEmpty, own.length + 1⟩ : Lexeme).extra = rest := List.drop_left
  rw [dropped]
  refine ⟨front, own, rfl, long, rfl, rfl, trim, unmarked, ?_, ?_⟩
  · refine .step (read.symm.trans taken) ?_
    rw [dropped]
    exact .done _ _
  · intro other later trim unmarked ends
    have opener_other : Delimiter.opener? (Byte.leftBrace :: delimiter.openMark ::
        (other ++ later)) = some delimiter := Delimiter.opener?_eq_some_iff.mpr ⟨other ++ later, by
          rw [Delimiter.openBytes_eq]
          rfl⟩
    have earlier := first.exchange (exchanges_of_opener opener opener_other) trivial
      fun _ _ keyword _ _ _ before => ends keyword (before.sound trivial)
    refine earlier.append (.step ((next_of_opener_of_ends (first.sound trivial) taken rfl
      opener_other ends).trans (opening_of_trimMark trim unmarked _ _)) ?_)
    rw [List.drop_succ_cons, List.drop_left]
    exact .done _ _

theorem length_of_bare {mode : Mode} {bytes : List UInt8}
    (reads : Reads mode bytes (left ++ lexeme :: right) final rest)
    (delimits : lexeme.kind = .opening delimiter ∨ lexeme.kind = .closing delimiter)
    (bare : lexeme.trim = false) : lexeme.length = 2 := by
  obtain ⟨_, _, -, last⟩ := reads.exists_of_append
  cases last with
  | step taken _ => exact Lexeme.length_of_bare taken delimits bare

/-- A mark behind a bare opening delimiter becomes part of it. -/
theorem insert_mark_opening {bytes : List UInt8}
    (reads : Reads .markup bytes (left ++ lexeme :: right) final [])
    (opens : lexeme.kind = .opening delimiter) (bare : lexeme.trim = false)
    (marked : Byte.isTrimMark mark = true) :
    ∃ front back, bytes = front ++ back ∧ front.length = width left + lexeme.length ∧
      Reads .markup (front ++ mark :: back) (left ++ lexeme.withMark :: right) final [] := by
  rw [List.append_cons] at reads
  obtain ⟨after, rest, first, last⟩ := reads.exists_of_append
  obtain ⟨front, own, rfl, long, rfl, rfl, -, unmarked, -, exchanged⟩ :=
    first.exists_opening_exchange opens
  obtain rfl : own = [] := by simpa using bare
  have grown := exchanged [mark] rest (.inr ⟨mark, marked, rfl⟩) (by simp)
    fun keyword _ starts => by
      rw [Delimiter.openBytes_eq] at starts ⊢
      exact startsTag_mark marked (unmarked rfl) starts
  refine ⟨front ++ delimiter.openBytes, rest, by simp, ?_, ?_⟩
  · simp [long, length, Delimiter.openBytes_eq]
  · have reads_grown := grown.append last
    rw [List.append_assoc] at reads_grown ⊢
    exact reads_grown

/-- A region that is closed has been opened, and only runs and literals have come since. -/
theorem exists_opening_of_closing {bytes : List UInt8}
    (reads : Reads .markup bytes (left ++ lexeme :: right) final rest)
    (closes : lexeme.kind = .closing delimiter) :
    ∃ before opener inner, left = before ++ opener :: inner ∧ opener.kind = .opening delimiter ∧
      Interior inner := by
  have fitting := reads.fitting
  rw [List.map_append, List.map_cons, TokenKind.fitting_append_iff] at fitting
  obtain ⟨taken, fits, -⟩ := fitting
  rw [closes] at fits
  obtain ⟨earlier, between, split, all⟩ := TokenKind.Fitting.inside taken fits
  obtain ⟨before, others, rfl, -, kinds⟩ := List.map_eq_append_iff.mp split
  obtain ⟨opener, inner, rfl, opens, rfl⟩ := List.map_eq_cons_iff.mp kinds
  refine ⟨before, opener, inner, rfl, opens, ?_⟩
  intro other member
  exact (all other.kind (List.mem_map_of_mem member)).imp_right And.left

/-- A region that is an end tag stays one with a mark before its bare closing delimiter. -/
theorem startsTag_insert {word upto closer : List UInt8} {opener : Lexeme}
    (plainWord : PlainWord word) (marked : Byte.isTrimMark mark = true)
    (reads : Reads .markup (upto ++ closer) (opener :: inner ++ lexeme :: right) final [])
    (within : Interior inner) (closes : lexeme.kind = .closing delimiter)
    (bare : lexeme.trim = false) (long : upto.length = width (opener :: inner))
    (starts : startsTag word (upto ++ closer) = true) :
    startsTag word (upto ++ mark :: closer) = true := by
  obtain ⟨tag, rest, split⟩ := exists_endTag starts
  rw [split] at reads
  rcases (tag.reads plainWord rest).compare reads with ⟨further, listed, -⟩ | ⟨_, _, filled, ended⟩
  · rw [EndTag.lexemes] at listed
    simp only [List.cons_append, List.nil_append, List.cons.injEq] at listed
    obtain ⟨rfl, listed⟩ := listed
    rcases inner with _ | ⟨run, _ | ⟨other, inner⟩⟩
    · simp only [List.nil_append, List.cons.injEq] at listed
      rw [listed.1] at closes
      cases closes
    · simp only [List.cons_append, List.nil_append, List.cons.injEq] at listed
      obtain ⟨rfl, rfl, -⟩ := listed
      have unmarked : tag.closeMark = [] := by simpa using bare
      have filled := List.length_pos_iff.mpr (tag.inside_ne_nil plainWord)
      have parts : upto ++ closer =
          (Byte.leftBrace :: Byte.percent :: (tag.openMark ++ tag.inside)) ++
            ([Byte.percent, Byte.rightBrace] ++ rest) := by
        rw [split]
        simp [EndTag.bytes, EndTag.tail, EndTag.close, unmarked]
      obtain ⟨rfl, rfl⟩ := List.append_inj parts (by
        simp only [raw, width_cons, width_nil, Lexeme.length] at long
        simp only [List.length_cons, List.length_append]
        omega)
      have grown := EndTag.starts plainWord
        { tag with closeMark := [mark], trim_close := .inr ⟨mark, marked, rfl⟩ } rest
      simpa [EndTag.bytes, EndTag.tail, EndTag.close, EndTag.inside] using grown
    · simp only [List.cons_append, List.cons.injEq] at listed
      have kind := within other (by simp)
      simp [listed.2.1] at kind
  · cases ended
    exact absurd rfl filled

/-- A mark before a bare closing delimiter becomes part of it, unless the delimiter follows a bare
opening one. -/
theorem insert_mark_closing {bytes : List UInt8}
    (reads : Reads .markup bytes (left ++ lexeme :: right) final [])
    (closes : lexeme.kind = .closing delimiter) (bare : lexeme.trim = false)
    (marked : Byte.isTrimMark mark = true) :
    (∃ before opener, left = before ++ [opener] ∧ opener.kind = .opening delimiter ∧
      opener.trim = false) ∨
    ∃ front back, bytes = front ++ back ∧ front.length = width left ∧
      delimiter.startsBareClose back = true ∧
      Reads .markup (front ++ mark :: back) (left ++ lexeme.withMark :: right) final [] := by
  obtain ⟨before, opener, inner, rfl, opens, within⟩ := reads.exists_opening_of_closing closes
  by_cases empty : inner = [] ∧ opener.trim = false
  · exact .inl ⟨before, opener, by rw [empty.1], opens, empty.2⟩
  refine .inr ?_
  rw [List.append_assoc, List.cons_append, List.append_cons] at reads
  obtain ⟨after, rest, first, last⟩ := reads.exists_of_append
  obtain ⟨front, own, rfl, long, rfl, rfl, trim, unmarked, alone, exchanged⟩ :=
    first.exists_opening_exchange opens
  obtain ⟨inside, closer, body, ending⟩ := last.exists_of_append
  obtain ⟨content, rfl, content_long⟩ := body.exists_taken
  cases ending with
  | @step _ after _ byte others _ _ _ closed further =>
      have kind : (next inside byte others).1.kind = .closing delimiter := by rwa [closed]
      obtain ⟨stands, grown⟩ := next_mark marked closed closes bare
      have body_grown := body.insert_mark marked rfl within kind stands
      have unmarked_grown : own = [] →
          (content ++ mark :: byte :: others).head?.any Byte.isTrimMark = false := by
        rintro rfl
        have filled : content ≠ [] := by
          rintro rfl
          exact empty ⟨eq_nil_of_width content_long.symm, rfl⟩
        obtain ⟨head, more, rfl⟩ := List.exists_cons_of_ne_nil filled
        exact unmarked rfl
      have opened := exchanged own (content ++ mark :: byte :: others) trim unmarked_grown
        fun keyword known starts => by
          have region := alone.append (body.append (.step closed further))
          rw [← List.append_assoc own, ← List.append_assoc delimiter.openBytes] at region starts
          have ended := startsTag_insert (plainWord_endWord known) marked region within closes bare
            (by simp [content_long, length, Delimiter.openBytes_eq]; omega) starts
          simpa using ended
      have reads_grown := opened.append (body_grown.append (.step grown further))
      refine ⟨front ++ (delimiter.openBytes ++ (own ++ content)), byte :: others, by simp, ?_,
        stands, ?_⟩
      · simp [long, content_long, length, Delimiter.openBytes_eq]
        omega
      · simpa using reads_grown

end Reads

end TwigTemplate
