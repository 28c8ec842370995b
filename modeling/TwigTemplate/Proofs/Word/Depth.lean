import TwigTemplate.Proofs.Word.Bracket

/-!
# Depth of words

The words of a tag are read with a count of open brackets, from which a closing bracket takes one
unless there is none.  The depth that a word is given by this count is the number of brackets that
enclose it.
-/

namespace TwigTemplate
namespace Word

/-- The words have the depths that a count from `depth` gives them. -/
def Counted (depth : Nat) : List Word → Prop
  | [] => True
  | word :: words =>
    word.depth = (if word.closes then depth - 1 else depth) ∧ Counted word.depthBehind words

theorem counted_among (following : Option UInt8) (start depth : Nat) (bytes : List UInt8) :
    Counted depth (among following start depth bytes) := by
  match bytes with
  | [] =>
    rw [among_nil]
    exact trivial
  | byte :: tail =>
    cases space : Byte.isSpace byte with
    | true =>
        rw [among_cons_of_isSpace space]
        exact counted_among following (start + 1) depth tail
    | false =>
        rw [among_cons space]
        exact ⟨depth_first, counted_among following _ _ (tail.drop _)⟩
termination_by bytes.length
decreasing_by all_goals simp only [List.length_cons, List.length_drop]; omega

theorem counted_append {depth : Nat} {left right : List Word} :
    Counted depth (left ++ right) ↔
      Counted depth left ∧ Counted (depthAfter depth left) right := by
  induction left generalizing depth with
  | nil => exact (and_iff_right trivial).symm
  | cons word left ih => rw [List.cons_append, Counted, Counted, ih, depthAfter_cons, and_assoc]

theorem depthBehind_of_opens {word : Word} (opens : word.opens = true) :
    word.depthBehind = word.depth + 1 := by
  rw [depthBehind, if_pos opens]

theorem depthBehind_of_not_opens {word : Word} (no_opening : word.opens = false) :
    word.depthBehind = word.depth := by
  rw [depthBehind, no_opening, if_neg Bool.false_ne_true]

theorem depthAfter_append (depth : Nat) (left right : List Word) :
    depthAfter depth (left ++ right) = depthAfter (depthAfter depth left) right := by
  induction left generalizing depth with
  | nil => rfl
  | cons word left ih => rw [List.cons_append, depthAfter_cons, depthAfter_cons, ih]

/-- Balanced words leave the count as it is, and it never falls below its beginning. -/
theorem Balanced.depths {depth : Nat} {inner : List Word} (balanced : Balanced inner)
    (counted : Counted depth inner) :
    depthAfter depth inner = depth ∧ ∀ word ∈ inner, depth ≤ word.depth := by
  induction balanced generalizing depth with
  | nil => exact ⟨rfl, List.forall_mem_nil _⟩
  | plain no_opening no_closing _ ih =>
      obtain ⟨here, counted⟩ := counted
      rw [no_closing, if_neg Bool.false_ne_true] at here
      rw [depthBehind_of_not_opens no_opening, here] at counted
      obtain ⟨behind, above⟩ := ih counted
      rw [depthAfter_cons, depthBehind_of_not_opens no_opening, here]
      exact ⟨behind, List.forall_mem_cons.mpr ⟨Nat.le_of_eq here.symm, above⟩⟩
  | @pair opener closer inner rest opens closes _ _ ih_within ih_further =>
      obtain ⟨here, counted⟩ := counted
      rw [not_closes_of_opens opens, if_neg Bool.false_ne_true] at here
      rw [depthBehind_of_opens opens, here, counted_append] at counted
      obtain ⟨within, outer, further⟩ := counted
      -- The closing bracket takes back what the opening one added, so the rest is counted from
      -- `depth` again.
      obtain ⟨same, above⟩ := ih_within within
      rw [same, closes, if_pos rfl, Nat.add_sub_cancel] at outer
      rw [depthBehind_of_not_opens (not_opens_of_closes closes), outer] at further
      obtain ⟨behind, above_further⟩ := ih_further further
      have closer_behind : closer.depthBehind = depth := by
        rw [depthBehind_of_not_opens (not_opens_of_closes closes), outer]
      refine ⟨?_, List.forall_mem_cons.mpr ⟨Nat.le_of_eq here.symm,
        List.forall_mem_append.mpr ⟨fun word member => Nat.le_of_succ_le (above word member),
          List.forall_mem_cons.mpr ⟨Nat.le_of_eq outer.symm, above_further⟩⟩⟩⟩
      rw [depthAfter_cons, depthAfter_append, depthAfter_cons, closer_behind, behind]

/-- The count is the number of brackets that wait to be closed. -/
theorem depthAfter_eq_length {words : List Word} (counted : Counted 0 words) :
    depthAfter 0 words = (openPlaces words).length := by
  induction words using List.reverseRecOn with
  | nil => rfl
  | append_singleton words word ih =>
      obtain ⟨earlier, here, -⟩ := counted_append.mp counted
      rw [ih earlier] at here
      have last : depthAfter 0 (words ++ [word]) = word.depthBehind := by
        rw [depthAfter, List.getLast?_concat]
        rfl
      rw [last]
      cases closes : word.closes with
      | true =>
          rw [closes, if_pos rfl] at here
          rw [depthBehind_of_not_opens (not_opens_of_closes closes), here,
            openPlaces_of_closes closes, List.length_tail]
      | false =>
          rw [closes, if_neg Bool.false_ne_true] at here
          cases opens : word.opens with
          | true =>
              rw [depthBehind_of_opens opens, here, openPlaces_of_opens opens, List.length_cons]
          | false =>
              rw [depthBehind_of_not_opens opens, here, openPlaces_of_plain opens closes]

/-- A closing bracket has the depth of the one to which it belongs, and what stands between them is
deeper. -/
theorem Matches.depths {words : List Word} {first last : Nat} (pair : Matches words first last)
    (counted : Counted 0 words) :
    ∃ opener closer, words[first]? = some opener ∧ words[last]? = some closer ∧
      closer.depth = opener.depth ∧
      ∀ place word, first < place → place < last → words[place]? = some word →
        opener.depth < word.depth := by
  obtain ⟨left, opener, inner, closer, right, rfl, rfl, rfl, opens, closes, balanced⟩ := pair
  rw [counted_append, counted_append] at counted
  obtain ⟨⟨-, here, within⟩, outer, -⟩ := counted
  rw [not_closes_of_opens opens, if_neg Bool.false_ne_true] at here
  rw [depthBehind_of_opens opens] at within
  obtain ⟨same, above⟩ := balanced.depths within
  rw [depthAfter_append, depthAfter_cons, depthBehind_of_opens opens, same, closes, if_pos rfl,
    Nat.add_sub_cancel] at outer
  refine ⟨opener, closer, by simp, by simp, outer, fun place word behind before found => ?_⟩
  obtain ⟨passed, rfl⟩ := Nat.exists_eq_add_of_lt behind
  rw [List.getElem?_append_left before, Nat.add_assoc,
    List.getElem?_append_right (Nat.le_add_right _ _), Nat.add_sub_cancel_left,
    List.getElem?_cons_succ] at found
  exact above word (List.mem_of_getElem? found)

/-- The brackets that enclose a word are those that wait before it, less the one that it closes. -/
def enclosing (words : List Word) (place : Nat) : List Nat :=
  let waiting := openPlaces (words.take place)
  if words[place]?.any Word.closes then waiting.tail else waiting

theorem nodup_enclosing (words : List Word) (place : Nat) : (enclosing words place).Nodup := by
  rw [enclosing]
  split
  · exact (nodup_openPlaces _).tail
  · exact nodup_openPlaces _

section Enclosing

variable {words : List Word} {word : Word} {place : Nat} (found : words[place]? = some word)
include found

theorem mem_enclosing_iff {first : Nat} :
    first ∈ enclosing words place ↔ EnclosedBy words place first := by
  have inside := Nat.le_of_lt (List.getElem?_eq_some_iff.mp found).1
  rw [enclosedBy_iff, ← mem_openPlaces_iff inside, matches_iff, enclosing, found, Option.any_some]
  split
  · rename_i closes
    rw [mem_tail_iff_of_nodup (nodup_openPlaces _), closes, and_iff_right rfl]
  · rename_i other
    rw [and_iff_left (fun closes => other closes.1)]

theorem length_enclosing (counted : Counted 0 words) :
    (enclosing words place).length = word.depth := by
  obtain ⟨inside, rfl⟩ := List.getElem?_eq_some_iff.mp found
  rw [← List.take_append_drop place words, counted_append, List.drop_eq_getElem_cons inside]
    at counted
  obtain ⟨earlier, here, -⟩ := counted
  rw [depthAfter_eq_length earlier] at here
  rw [enclosing, found, Option.any_some, here]
  split
  · exact List.length_tail
  · rfl

end Enclosing

/-- The depths of the words of a tag are those of brackets that match.  A closing bracket is ignored
if and only if it belongs to no other, and brackets belong to one other at most.  Two that belong
together have the same depth, and what stands between them is deeper; one that is ignored has the
depth zero.  Each word is as deep as there are brackets that enclose it, so a word of depth zero is
one that no bracket encloses. -/
theorem depths_of_brackets (source : Source) (span : Span) :
    let words := split source span
    (∀ last, words[last]?.any Word.closes = true →
      (Ignored words last ↔ ∀ first, ¬ Matches words first last)) ∧
    (∀ first other last, Matches words first last → Matches words other last → first = other) ∧
    (∀ first last other, Matches words first last → Matches words first other → last = other) ∧
    (∀ first last, Matches words first last →
      ∃ opener closer, words[first]? = some opener ∧ words[last]? = some closer ∧
        closer.depth = opener.depth ∧
        ∀ place word, first < place → place < last → words[place]? = some word →
          opener.depth < word.depth) ∧
    ∀ place word, words[place]? = some word →
      (Ignored words place → word.depth = 0) ∧
      (∃ brackets : List Nat, brackets.Nodup ∧
        (∀ first, first ∈ brackets ↔ EnclosedBy words place first) ∧
        word.depth = brackets.length) ∧
      (word.depth = 0 ↔ ∀ first, ¬ EnclosedBy words place first) := by
  intro words
  have counted : Counted 0 words := counted_among _ _ _ _
  refine ⟨fun last closes => ⟨fun ignored first => ignored.not_matches, fun single => ?_⟩,
    fun first other last => Matches.first_unique, fun first last other => Matches.last_unique,
    fun first last pair => pair.depths counted, fun place word found => ?_⟩
  · exact (exists_matches_or_ignored closes).resolve_left (not_exists.mpr single)
  · have depth_eq := length_enclosing found counted
    have enclosed (first : Nat) : first ∈ enclosing words place ↔ EnclosedBy words place first :=
      mem_enclosing_iff found
    have outermost : word.depth = 0 ↔ ∀ first, ¬ EnclosedBy words place first := by
      rw [← depth_eq, List.length_eq_zero_iff, List.eq_nil_iff_forall_not_mem]
      exact forall_congr' fun first => not_congr (enclosed first)
    refine ⟨fun ignored => outermost.mpr fun first within => ?_,
      ⟨enclosing words place, nodup_enclosing words place, enclosed, depth_eq.symm⟩, outermost⟩
    exact ignored.2 first (enclosedBy_iff.mp within).1

/-- Brackets of different kinds belong together; the second closing one is ignored, and the last
bracket stays open. -/
example :
    let words := ofText "f(a] ) [b"
    Matches words 1 3 ∧ words.map Word.depth = [0, 0, 1, 0, 0, 0, 1] := by decide +kernel

end Word
end TwigTemplate
