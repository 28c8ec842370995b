import Mathlib.Data.List.Induction
import TwigTemplate.Proofs.Word.Plain

/-!
# Brackets that match

The brackets among words are matched as if all of them were parentheses.  A closing bracket belongs
to the last one before it that is still open, and to none if there is no such bracket.  Two brackets
belong together if and only if what stands between them is balanced, so a list of the brackets that
wait to be closed tells for each place by which ones it is enclosed.
-/

namespace TwigTemplate
namespace Word

/-- Each bracket among the words has its counterpart there. -/
inductive Balanced : List Word → Prop
  /-- There are no words. -/
  | nil : Balanced []
  /-- A word is no bracket. -/
  | plain {word : Word} {rest : List Word} (no_opening : word.opens = false)
      (no_closing : word.closes = false) (further : Balanced rest) : Balanced (word :: rest)
  /-- Two brackets belong together. -/
  | pair {opener closer : Word} {inner rest : List Word} (opens : opener.opens = true)
      (closes : closer.closes = true) (within : Balanced inner) (further : Balanced rest) :
      Balanced (opener :: (inner ++ closer :: rest))

/-- The words at the two places are brackets that belong together. -/
def Matches (words : List Word) (first last : Nat) : Prop :=
  ∃ left opener inner closer right, words = left ++ opener :: inner ++ closer :: right ∧
    first = left.length ∧ last = (left ++ opener :: inner).length ∧
    opener.opens = true ∧ closer.closes = true ∧ Balanced inner

/-- The word at the first place is a bracket that has not been closed before the second one. -/
structure StillOpen (words : List Word) (place first : Nat) : Prop where
  /-- It stands before the place. -/
  before : first < place
  /-- It is a bracket. -/
  opens : words[first]?.any Word.opens = true
  /-- No bracket before the place closes it. -/
  waits : ∀ last < place, ¬ Matches words first last

/-- The word at the place is a closing bracket without an open one before it. -/
def Ignored (words : List Word) (place : Nat) : Prop :=
  words[place]?.any Word.closes = true ∧ ∀ first, ¬ StillOpen words place first

/-- The first place stands before the second one, and its bracket is closed behind that, or
never. -/
def EnclosedBy (words : List Word) (place first : Nat) : Prop :=
  first < place ∧
    ((∃ last, place < last ∧ Matches words first last) ∨
      words[first]?.any Word.opens = true ∧ ∀ last, ¬ Matches words first last)

/-- The brackets that wait to be closed behind the words, the innermost one first. -/
def openPlaces (words : List Word) : List Nat := words.zipIdx.foldl step []
where
  /-- Read one more word. -/
  step (waiting : List Nat) : Word × Nat → List Nat
    | (word, place) =>
      if word.closes then waiting.tail
      else if word.opens then place :: waiting
      else waiting

theorem not_closes_of_opens {word : Word} (opens : word.opens = true) : word.closes = false := by
  rw [Bool.eq_false_iff]
  intro closes
  rw [not_opens_of_closes closes] at opens
  cases opens

/-! ### Brackets that wait -/

section OpenPlaces

variable {words inner : List Word} {word : Word}

theorem openPlaces_append_singleton (words : List Word) (word : Word) :
    openPlaces (words ++ [word]) = openPlaces.step (openPlaces words) (word, words.length) := by
  rw [openPlaces, List.zipIdx_append, List.foldl_append, ← openPlaces, Nat.zero_add]
  rfl

theorem openPlaces_of_closes (closes : word.closes = true) (words : List Word) :
    openPlaces (words ++ [word]) = (openPlaces words).tail := by
  rw [openPlaces_append_singleton, openPlaces.step, if_pos closes]

theorem openPlaces_of_opens (opens : word.opens = true) (words : List Word) :
    openPlaces (words ++ [word]) = words.length :: openPlaces words := by
  rw [openPlaces_append_singleton, openPlaces.step, not_closes_of_opens opens, opens]
  rfl

theorem openPlaces_of_plain (no_opening : word.opens = false) (no_closing : word.closes = false)
    (words : List Word) : openPlaces (words ++ [word]) = openPlaces words := by
  rw [openPlaces_append_singleton, openPlaces.step, no_closing, no_opening]
  rfl

/-- The innermost bracket comes last, and all of them are places of words. -/
theorem pairwise_openPlaces (words : List Word) :
    (openPlaces words).Pairwise (· > ·) ∧ ∀ first ∈ openPlaces words, first < words.length := by
  induction words using List.reverseRecOn with
  | nil => exact ⟨List.Pairwise.nil, List.forall_mem_nil _⟩
  | append_singleton words word ih =>
      obtain ⟨sorted, inside⟩ := ih
      have inside_more : ∀ first ∈ openPlaces words, first < (words ++ [word]).length := by
        intro first member
        rw [List.length_append]
        exact Nat.lt_add_right _ (inside first member)
      rw [openPlaces_append_singleton, openPlaces.step]
      split
      · exact ⟨sorted.tail, fun first member => inside_more first (List.mem_of_mem_tail member)⟩
      split
      · exact ⟨List.pairwise_cons.mpr ⟨inside, sorted⟩,
          List.forall_mem_cons.mpr ⟨by simp, inside_more⟩⟩
      · exact ⟨sorted, inside_more⟩

theorem nodup_openPlaces (words : List Word) : (openPlaces words).Nodup :=
  (pairwise_openPlaces words).1.imp Nat.ne_of_gt

theorem mem_tail_iff_of_nodup {places : List Nat} (nodup : places.Nodup) {first : Nat} :
    first ∈ places.tail ↔ first ∈ places ∧ ¬ places.head? = some first := by
  cases places with
  | nil => simp
  | cons innermost others =>
      rw [List.nodup_cons] at nodup
      rw [List.tail_cons, List.head?_cons, Option.some.injEq, List.mem_cons]
      constructor
      · intro member
        refine ⟨.inr member, ?_⟩
        rintro rfl
        exact nodup.1 member
      · rintro ⟨same | member, other⟩
        · exact absurd same.symm other
        · exact member

theorem Balanced.append (left : Balanced words) (right : Balanced inner) :
    Balanced (words ++ inner) := by
  induction left with
  | nil => exact right
  | plain no_opening no_closing _ ih => exact .plain no_opening no_closing ih
  | pair opens closes within _ _ ih =>
      rw [List.cons_append, List.append_assoc, List.cons_append]
      exact .pair opens closes within ih

/-- Balanced words leave no bracket behind and close none. -/
theorem Balanced.openPlaces_append (balanced : Balanced inner) (words : List Word) :
    openPlaces (words ++ inner) = openPlaces words := by
  induction balanced generalizing words with
  | nil => rw [List.append_nil]
  | plain no_opening no_closing _ ih =>
      rw [List.append_cons, ih, openPlaces_of_plain no_opening no_closing]
  | @pair opener closer inner rest opens closes _ _ ih_within ih_further =>
      rw [List.append_cons, ← List.append_assoc, List.append_cons, ih_further,
        openPlaces_of_closes closes, ih_within, openPlaces_of_opens opens, List.tail_cons]

/-- What stands behind the innermost bracket is balanced. -/
theorem exists_of_openPlaces_eq_cons {words : List Word} {first : Nat} {others : List Nat}
    (waiting : openPlaces words = first :: others) :
    ∃ left opener inner, words = left ++ opener :: inner ∧ first = left.length ∧
      opener.opens = true ∧ Balanced inner ∧ openPlaces left = others := by
  rcases List.eq_nil_or_concat words with nothing | ⟨front, word, split⟩
  · rw [nothing] at waiting
    cases waiting
  rw [List.concat_eq_append] at split
  rw [split, openPlaces_append_singleton, openPlaces.step] at waiting
  split at waiting
  · rename_i closes
    -- The word closes the bracket in front of the one that is wanted, which waits behind less.
    cases before : openPlaces front with
    | nil =>
        rw [before] at waiting
        cases waiting
    | cons last rest =>
        rw [before, List.tail_cons] at waiting
        obtain ⟨left, opener, inner, front_eq, -, opens, within, behind⟩ :=
          exists_of_openPlaces_eq_cons before
        obtain ⟨left, outer, between, left_eq, first_eq, outer_opens, balanced, others_eq⟩ :=
          exists_of_openPlaces_eq_cons (behind.trans waiting)
        refine ⟨left, outer, between ++ opener :: (inner ++ [word]), ?_, first_eq, outer_opens,
          balanced.append (.pair opens closes within .nil), others_eq⟩
        rw [split, front_eq, left_eq]
        simp only [List.append_assoc, List.cons_append]
  split at waiting
  · rename_i opens
    obtain ⟨rfl, rfl⟩ := List.cons.inj waiting
    exact ⟨front, word, [], split, rfl, opens, .nil, rfl⟩
  · rename_i no_closing no_opening
    obtain ⟨left, opener, inner, rfl, first_eq, opens, within, others_eq⟩ :=
      exists_of_openPlaces_eq_cons waiting
    refine ⟨left, opener, inner ++ [word], ?_, first_eq, opens, ?_, others_eq⟩
    · rw [split, List.append_assoc, List.cons_append]
    · exact within.append (.plain (Bool.eq_false_iff.mpr no_opening)
        (Bool.eq_false_iff.mpr no_closing) .nil)
termination_by words.length
decreasing_by all_goals simp [*]

end OpenPlaces

/-! ### The brackets that belong together -/

section Matches

variable {words : List Word} {first last place : Nat}

/-- A closing bracket belongs to the innermost one that waits for it. -/
theorem matches_iff :
    Matches words first last ↔
      words[last]?.any Word.closes = true ∧ (openPlaces (words.take last)).head? = some first := by
  constructor
  · rintro ⟨left, opener, inner, closer, right, rfl, rfl, rfl, opens, closes, balanced⟩
    rw [List.take_left, List.getElem?_append_right (Nat.le_refl _), Nat.sub_self, List.append_cons,
      balanced.openPlaces_append, openPlaces_of_opens opens]
    exact ⟨closes, rfl⟩
  · rintro ⟨closes, innermost⟩
    obtain ⟨closer, found, closes⟩ := (Option.any_eq_true _ _).mp closes
    obtain ⟨inside, rfl⟩ := List.getElem?_eq_some_iff.mp found
    obtain ⟨others, waiting⟩ := List.head?_eq_some_iff.mp innermost
    obtain ⟨left, opener, inner, front, first_eq, opens, balanced, -⟩ :=
      exists_of_openPlaces_eq_cons waiting
    refine ⟨left, opener, inner, words[last], words.drop (last + 1), ?_, first_eq, ?_, opens,
      closes, balanced⟩
    · rw [← front, List.getElem_cons_drop, List.take_append_drop]
    · rw [← front, List.length_take_of_le (Nat.le_of_lt inside)]

instance (words : List Word) (first last : Nat) : Decidable (Matches words first last) :=
  decidable_of_iff _ matches_iff.symm

theorem Matches.lt (pair : Matches words first last) : first < last := by
  obtain ⟨left, opener, inner, closer, right, -, rfl, rfl, -⟩ := pair
  simp

theorem Matches.opens (pair : Matches words first last) :
    words[first]?.any Word.opens = true := by
  obtain ⟨left, opener, inner, closer, right, rfl, rfl, -, opens, -⟩ := pair
  rw [List.append_assoc, List.getElem?_append_right (Nat.le_refl _), Nat.sub_self]
  exact opens

theorem Matches.closes (pair : Matches words first last) :
    words[last]?.any Word.closes = true := (matches_iff.mp pair).1

/-- A closing bracket belongs to one bracket at most. -/
theorem Matches.first_unique {other : Nat} (pair : Matches words first last)
    (others : Matches words other last) : first = other :=
  Option.some.inj ((matches_iff.mp pair).2.symm.trans (matches_iff.mp others).2)

/-- One more word closes a bracket that was still open, or it is a new one, or neither. -/
theorem stillOpen_succ_iff {word : Word} (found : words[place]? = some word) :
    StillOpen words (place + 1) first ↔
      StillOpen words place first ∧ ¬ Matches words first place ∨
        first = place ∧ word.opens = true := by
  constructor
  · rintro ⟨before, opens, waits⟩
    rcases Nat.lt_succ_iff_lt_or_eq.mp before with earlier | rfl
    · exact .inl ⟨⟨earlier, opens, fun last below => waits last (Nat.lt_succ_of_lt below)⟩,
        waits place (Nat.lt_succ_self place)⟩
    · rw [found] at opens
      exact .inr ⟨rfl, opens⟩
  · rintro (⟨⟨before, opens, waits⟩, missing⟩ | ⟨rfl, opens⟩)
    · refine ⟨Nat.lt_succ_of_lt before, opens, fun last below => ?_⟩
      rcases Nat.lt_succ_iff_lt_or_eq.mp below with earlier | rfl
      · exact waits last earlier
      · exact missing
    · refine ⟨Nat.lt_succ_self first, by rw [found]; exact opens, fun last below pair => ?_⟩
      exact absurd pair.lt (Nat.not_lt_of_le (Nat.le_of_lt_succ below))

/-- The brackets that wait before a place are those that are still open there. -/
theorem mem_openPlaces_iff (inside : place ≤ words.length) :
    first ∈ openPlaces (words.take place) ↔ StillOpen words place first := by
  induction place generalizing first with
  | zero => exact iff_of_false (List.not_mem_nil) fun still => Nat.not_lt_zero _ still.before
  | succ place ih =>
      have found := List.getElem?_eq_getElem inside
      have length_eq : (words.take place).length = place :=
        List.length_take_of_le (Nat.le_of_succ_le inside)
      have matches_here (first : Nat) : Matches words first place ↔
          words[place].closes = true ∧ (openPlaces (words.take place)).head? = some first := by
        rw [matches_iff, found, Option.any_some]
      rw [stillOpen_succ_iff found, ← ih (Nat.le_of_succ_le inside), matches_here,
        List.take_succ_eq_append_getElem inside]
      cases closes : words[place].closes with
      | true =>
          rw [openPlaces_of_closes closes, not_opens_of_closes closes,
            mem_tail_iff_of_nodup (nodup_openPlaces _)]
          simp
      | false =>
          cases opens : words[place].opens with
          | true =>
              rw [openPlaces_of_opens opens, length_eq, List.mem_cons]
              simp [or_comm]
          | false =>
              rw [openPlaces_of_plain opens closes]
              simp

/-- A closing bracket belongs to a bracket that is still open before it. -/
theorem Matches.stillOpen (pair : Matches words first last) : StillOpen words last first := by
  obtain ⟨closer, found, -⟩ := (Option.any_eq_true _ _).mp pair.closes
  have inside := Nat.le_of_lt (List.getElem?_eq_some_iff.mp found).1
  exact (mem_openPlaces_iff inside).mp (List.mem_of_head? (matches_iff.mp pair).2)

/-- A bracket is closed once at most. -/
theorem Matches.last_unique {other : Nat} (pair : Matches words first last)
    (others : Matches words first other) : last = other := by
  rcases Nat.lt_trichotomy last other with before | same | behind
  · exact absurd pair (others.stillOpen.waits last before)
  · exact same
  · exact absurd others (pair.stillOpen.waits other behind)

/-- A closing bracket belongs to a bracket unless none is open before it. -/
theorem exists_matches_or_ignored (closes : words[last]?.any Word.closes = true) :
    (∃ first, Matches words first last) ∨ Ignored words last := by
  obtain ⟨closer, found, -⟩ := (Option.any_eq_true _ _).mp closes
  have inside := Nat.le_of_lt (List.getElem?_eq_some_iff.mp found).1
  cases waiting : openPlaces (words.take last) with
  | nil =>
      refine .inr ⟨closes, fun first still => ?_⟩
      rw [← mem_openPlaces_iff inside, waiting] at still
      cases still
  | cons first others =>
      refine .inl ⟨first, matches_iff.mpr ⟨closes, ?_⟩⟩
      rw [waiting, List.head?_cons]

theorem Ignored.not_matches (ignored : Ignored words last) : ¬ Matches words first last :=
  fun pair => ignored.2 first pair.stillOpen

/-- A place is enclosed by the brackets that are still open there and are not closed by it. -/
theorem enclosedBy_iff :
    EnclosedBy words place first ↔
      StillOpen words place first ∧ ¬ Matches words first place := by
  constructor
  · rintro ⟨before, ⟨last, behind, pair⟩ | ⟨opens, never⟩⟩
    · have other (earlier : Nat) (below : earlier ≤ place) : ¬ Matches words first earlier := by
        intro closed
        have := pair.last_unique closed
        omega
      exact ⟨⟨before, pair.opens, fun earlier below => other earlier (Nat.le_of_lt below)⟩,
        other place (Nat.le_refl place)⟩
    · exact ⟨⟨before, opens, fun last _ => never last⟩, never place⟩
  · rintro ⟨⟨before, opens, waits⟩, missing⟩
    refine ⟨before, ?_⟩
    by_cases closed : ∃ last, Matches words first last
    · obtain ⟨last, pair⟩ := closed
      refine .inl ⟨last, ?_, pair⟩
      rcases Nat.lt_trichotomy last place with earlier | rfl | behind
      · exact absurd pair (waits last earlier)
      · exact absurd pair missing
      · exact behind
    · exact .inr ⟨opens, not_exists.mp closed⟩

end Matches

end Word
end TwigTemplate
