import TwigTemplate.Proofs.Source
import TwigTemplate.Tag

/-!
# Tags of a single word

The header of a tag is a keyword without words after it if and only if the tag holds the keyword
alone, between spaces.
-/

namespace TwigTemplate

namespace Byte

theorem not_continuesName_of_isSpace {byte : UInt8} (space : isSpace byte = true) :
    continuesName byte = false := by
  simp only [isSpace, Bool.or_eq_true, beq_iff_eq] at space
  rcases space with (((rfl | rfl) | rfl) | rfl) | rfl <;> decide

theorem not_isSpace_of_startsName {byte : UInt8} (starts : startsName byte = true) :
    isSpace byte = false := by
  rw [Bool.eq_false_iff]
  intro space
  have continues := not_continuesName_of_isSpace space
  rw [continuesName, starts, Bool.true_or] at continues
  cases continues

end Byte

namespace Word

/-- The bytes form a name. -/
def SpellsName (bytes : List UInt8) : Prop :=
  ∃ byte others, bytes = byte :: others ∧ Byte.startsName byte = true ∧
    ∀ other ∈ others, Byte.continuesName other = true

theorem spellsName_iff {bytes : List UInt8} :
    SpellsName bytes ↔ bytes.head?.any Byte.startsName = true ∧
      bytes.tail.all Byte.continuesName = true := by
  cases bytes with
  | nil => simp [SpellsName]
  | cons byte others =>
      rw [List.head?_cons, Option.any_some, List.tail_cons, List.all_eq_true]
      constructor
      · rintro ⟨_, _, same, spells⟩
        obtain ⟨rfl, rfl⟩ := List.cons.inj same
        exact spells
      · exact fun spells => ⟨byte, others, rfl, spells⟩

instance (bytes : List UInt8) : Decidable (SpellsName bytes) :=
  decidable_of_iff _ spellsName_iff.symm

section Collect

variable {following : Option UInt8} {start depth : Nat} {found : Array Word}
  {bytes name before after : List UInt8}

/-- The words at hand only come before those of the content. -/
theorem collect_eq_append (following : Option UInt8) (start depth : Nat) (found : Array Word)
    (bytes : List UInt8) :
    collect following start depth found bytes =
      found ++ collect following start depth #[] bytes := by
  match bytes with
  | [] => rw [collect, collect, Array.append_empty]
  | byte :: tail =>
    rw [collect, collect]
    split
    · exact collect_eq_append following (start + 1) depth found tail
    · dsimp only
      rw [collect_eq_append _ _ _ (found.push _), collect_eq_append _ _ _ (#[].push _),
        ← Array.append_assoc, Array.append_push, Array.append_empty]
termination_by bytes.length
decreasing_by all_goals simp only [List.length_cons, List.length_drop]; omega

/-- There are no words among spaces, and only there. -/
theorem collect_eq_self_iff :
    collect following start depth found bytes = found ↔
      ∀ byte ∈ bytes, Byte.isSpace byte = true := by
  fun_induction collect following start depth found bytes with
  | case1 => simp
  | case2 start depth found byte tail space ih => simp [ih, space]
  | case3 start depth found byte tail other kind extra shaped stop outer inner text ih =>
      constructor
      · intro same
        have longer := congrArg Array.size same
        rw [collect_eq_append, Array.size_append, Array.size_push] at longer
        omega
      · intro spaces
        exact absurd (spaces byte List.mem_cons_self) other

theorem collect_append_of_spaces (spaces : ∀ byte ∈ before, Byte.isSpace byte = true)
    (start : Nat) (rest : List UInt8) :
    collect following start depth found (before ++ rest) =
      collect following (start + before.length) depth found rest := by
  induction before generalizing start with
  | nil => rfl
  | cons byte before ih =>
      rw [List.forall_mem_cons] at spaces
      rw [List.cons_append, collect, if_pos spaces.1, ih spaces.2, List.length_cons]
      congr 1
      omega

/-- The word of a content that holds a name between spaces. -/
theorem collect_name (following : Option UInt8) (start depth : Nat) (spells : SpellsName name)
    (spaces_before : ∀ byte ∈ before, Byte.isSpace byte = true)
    (spaces_after : ∀ byte ∈ after, Byte.isSpace byte = true) :
    collect following start depth #[] (before ++ (name ++ after)) =
      #[⟨.name, ⟨start + before.length, start + before.length + name.length⟩, depth,
        (String.fromUTF8? ⟨name.toArray⟩).getD ""⟩] := by
  obtain ⟨byte, others, rfl, starts, continues⟩ := spells
  have no_more : after.takeWhile Byte.continuesName = [] := by
    cases after with
    | nil => rfl
    | cons space after =>
        have ends := Byte.not_continuesName_of_isSpace (spaces_after space List.mem_cons_self)
        exact List.takeWhile_cons_of_neg (by simp [ends])
  have taken : (others ++ after).takeWhile Byte.continuesName = others := by
    rw [List.takeWhile_append_of_pos continues, no_more, List.append_nil]
  have shaped : shape following byte (others ++ after) = (.name, others.length) := by
    rw [shape, if_pos starts, taken]
  rw [collect_append_of_spaces spaces_before, List.cons_append, collect,
    if_neg (by simp [Byte.not_isSpace_of_startsName starts]), shaped]
  simp only [List.take_left, List.drop_left]
  rw [collect_eq_self_iff.mpr spaces_after]
  simp [Nat.add_assoc]

/-- A content with a single word holds the word between spaces. -/
theorem exists_of_collect_eq_singleton {word : Word} (nothing : found = #[])
    (alone : collect following start depth found bytes = #[word]) :
    ∃ before inside after, bytes = before ++ (inside ++ after) ∧
      (∀ byte ∈ before, Byte.isSpace byte = true) ∧ (∀ byte ∈ after, Byte.isSpace byte = true) ∧
      word.text = (String.fromUTF8? ⟨inside.toArray⟩).getD "" := by
  fun_induction collect following start depth found bytes with
  | case1 =>
      subst nothing
      cases alone
  | case2 start depth found byte tail space ih =>
      obtain ⟨before, inside, after, rfl, spaces, others, text⟩ := ih nothing alone
      exact ⟨byte :: before, inside, after, rfl, List.forall_mem_cons.mpr ⟨space, spaces⟩, others,
        text⟩
  | case3 start depth found byte tail other kind extra shaped stop outer inner text ih =>
      subst nothing
      rw [collect_eq_append] at alone
      have single := congrArg Array.size alone
      rw [Array.size_append] at single
      have no_more : collect following stop inner #[] (tail.drop extra) = #[] :=
        Array.eq_empty_of_size_eq_zero (by simpa using single)
      rw [no_more] at alone
      have same : Word.mk kind ⟨start, stop⟩ outer text = word := by simpa using alone
      refine ⟨[], byte :: tail.take extra, tail.drop extra, ?_, by simp,
        collect_eq_self_iff.mp no_more, ?_⟩
      · rw [List.nil_append, List.cons_append, List.take_append_drop]
      · rw [← same]

end Collect
end Word

namespace Header

variable {source : Source} {body : Span} {keyword : String}

theorem ofWords_eq_iff {words : List Word} {keyword : Excerpt} :
    ofWords words = ⟨some keyword, []⟩ ↔
      ∃ word, words = [word] ∧ word.kind = .name ∧ Excerpt.ofWord word = keyword := by
  cases words with
  | nil => simp [ofWords]
  | cons first rest =>
      rw [ofWords, Excerpt.ofName?]
      by_cases name : first.kind = .name
      · rw [if_pos name]
        constructor
        · intro same
          cases same
          exact ⟨first, rfl, name, rfl⟩
        · rintro ⟨word, alone, -, rfl⟩
          cases alone
          rfl
      · rw [if_neg name]
        simp [name]

/-- The header of a tag is a keyword alone if and only if the tag holds it between spaces. -/
theorem exists_ofBody_eq_iff (spells : Word.SpellsName keyword.toUTF8.data.toList) :
    (∃ place, ofBody source body = ⟨some ⟨keyword, place⟩, []⟩) ↔
      ∃ before after, source.slice body = before ++ (keyword.toUTF8.data.toList ++ after) ∧
        (∀ byte ∈ before, Byte.isSpace byte = true) ∧
        ∀ byte ∈ after, Byte.isSpace byte = true := by
  have filled : keyword ≠ "" := by
    rintro rfl
    obtain ⟨byte, others, empty, -⟩ := spells
    cases empty
  constructor
  · rintro ⟨place, alone⟩
    obtain ⟨word, split, name, same⟩ := ofWords_eq_iff.mp alone
    have collected : Word.collect _ _ _ #[] (source.slice body) = #[word] :=
      Array.toList_inj.mp split
    obtain ⟨before, inside, after, bytes, spaces, others, text⟩ :=
      Word.exists_of_collect_eq_singleton rfl collected
    obtain rfl : word.text = keyword := congrArg Excerpt.text same
    rw [(Source.getD_fromUTF8?_eq_iff filled).mp text.symm]
    exact ⟨before, after, bytes, spaces, others⟩
  · rintro ⟨before, after, bytes, spaces, others⟩
    have text : (String.fromUTF8? ⟨keyword.toUTF8.data.toList.toArray⟩).getD "" = keyword :=
      (Source.getD_fromUTF8?_eq_iff filled).mpr rfl
    have split := congrArg Array.toList
      (Word.collect_name (source.byte? body.stop) body.start 0 spells spaces others)
    rw [← bytes] at split
    exact ⟨_, ofWords_eq_iff.mpr ⟨_, split, rfl, by rw [Excerpt.ofWord, text]⟩⟩

end Header
end TwigTemplate
