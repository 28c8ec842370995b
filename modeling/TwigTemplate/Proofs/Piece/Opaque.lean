import Mathlib.Data.List.Infix
import TwigTemplate.Proofs.Piece.Append
import TwigTemplate.Proofs.Tag.Verbatim

/-!
# Verbatim bodies are not looked into

A verbatim tag, a body in which its end tag does not occur, and the end tag are two tags with one
piece of markup between them, whatever the body holds and whatever follows.  The search for the end
tag passes over the body, because no end tag that begins in the body reaches past it.
-/

namespace TwigTemplate

/-- The distance to the first point at which the test succeeds. -/
theorem distanceTo_of_forall {stop : List UInt8 → Bool} {front rest : List UInt8}
    (passes : ∀ earlier later, front = earlier ++ later → later ≠ [] → stop (later ++ rest) = false)
    (stops : stop rest = true) : distanceTo stop (front ++ rest) = front.length := by
  induction front with
  | nil =>
      cases rest with
      | nil => rfl
      | cons byte rest => rw [List.nil_append, distanceTo_cons, if_pos stops, List.length_nil]
  | cons byte front ih =>
      have goes_on := passes [] (byte :: front) rfl (List.cons_ne_nil _ _)
      rw [List.cons_append] at goes_on
      rw [List.cons_append, distanceTo_cons, goes_on, if_neg Bool.false_ne_true, List.length_cons,
        ih fun earlier later split => passes (byte :: earlier) later (congrArg (byte :: ·) split)]

namespace Lexeme

/-- No end tag with the word occurs in the bytes. -/
def Unended (word bytes : List UInt8) : Prop :=
  ∀ (before : List UInt8) (tag : EndTag word) (after : List UInt8),
    bytes ≠ before ++ (tag.bytes ++ after)

theorem unended_iff {word bytes : List UInt8} (plainWord : PlainWord word) :
    Unended word bytes ↔ ∀ later ∈ bytes.tails, startsTag word later = false := by
  simp only [List.mem_tails, Bool.eq_false_iff]
  constructor
  · rintro unended later ⟨earlier, rfl⟩ starts
    obtain ⟨tag, after, rfl⟩ := exists_endTag starts
    exact unended earlier tag after rfl
  · rintro none before tag after rfl
    exact none _ (List.suffix_append before _) (tag.starts plainWord after)

/-- No end tag begins before another one that follows the bytes. -/
theorem Unended.not_startsTag {word bytes : List UInt8} (plainWord : PlainWord word)
    (unended : Unended word bytes) (ender : EndTag word) (rest : List UInt8)
    {earlier later : List UInt8} (split : bytes = earlier ++ later) (filled : later ≠ []) :
    startsTag word (later ++ (ender.bytes ++ rest)) = false := by
  have suffix : later ∈ bytes.tails := (List.mem_tails _ _).mpr ⟨earlier, split.symm⟩
  have free := (unended_iff plainWord).mp unended later suffix
  rw [Bool.eq_false_iff] at free ⊢
  exact fun starts =>
    free ((startsTag_append_leftBrace_iff plainWord filled (ender.tail ++ rest)).mp starts)

/-! ### What a tag of a single word is followed by -/

theorem plainWord_known {keyword : String} (known : keyword ∈ verbatimKeywords) :
    PlainWord keyword.toUTF8.data.toList := by
  rcases eq_of_known known with rfl | rfl <;> exact ⟨by decide +kernel, by decide +kernel⟩

theorem trim_inside {keyword : String} (filled : keyword ≠ "")
    (unblank : ∀ character ∈ keyword.toList, Blank.isBlank character = false)
    (tag : EndTag keyword.toUTF8.data.toList) :
    Blank.trim ((String.fromUTF8? ⟨tag.inside.toArray⟩).getD "").toList = keyword.toList :=
  ((Blank.exists_spaces_iff filled unblank).mp
    ⟨tag.before, tag.after, rfl, tag.space_before, tag.space_after⟩).1

section Known

variable {keyword : String} (known : keyword ∈ verbatimKeywords)
include known

theorem closing_of_known (tag : EndTag keyword.toUTF8.data.toList) :
    (closing .tag Byte.percent tag.inside.reverse).2 = .verbatim keyword := by
  rw [closing_tag_eq_verbatim_iff, List.reverse_reverse, verbatimKeyword?_eq_some_iff known]
  exact trim_inside (ne_empty_of_known known) (not_isBlank_of_known known) tag

theorem closing_of_endWord (tag : EndTag (endWord keyword)) :
    (closing .tag Byte.percent tag.inside.reverse).2 = .markup := by
  have filled : "end" ++ keyword ≠ "" := by simp
  have unblank : ∀ character ∈ ("end" ++ keyword).toList, Blank.isBlank character = false := by
    have none : ("end" ++ keyword).toList.any Blank.isBlank = false := by
      rcases eq_of_known known with rfl | rfl <;> decide
    simpa using none
  rcases mode_closing .tag Byte.percent tag.inside.reverse with markup | ⟨-, other, found, -⟩
  · exact markup
  · rw [List.reverse_reverse] at found
    obtain ⟨member, trimmed⟩ := trim_of_verbatimKeyword? found
    obtain rfl := String.toList_inj.mp ((trim_inside filled unblank tag).symm.trans trimmed)
    rcases eq_of_known known with rfl | rfl <;> exact absurd member (by decide)

end Known

/-- An end tag of a verbatim body is read as it is in markup. -/
theorem reads_verbatim_of_starts {keyword : String} {byte : UInt8} {tail rest : List UInt8}
    {lexeme : Lexeme} {lexemes : List Lexeme} {final : Mode}
    (starts : startsTag (endWord keyword) (byte :: tail) = true)
    (reads : Reads .markup (byte :: tail) (lexeme :: lexemes) final rest) :
    Reads (.verbatim keyword) (byte :: tail) (lexeme :: lexemes) final rest := by
  cases reads with
  | step taken further =>
      exact .step ((ofVerbatim_of_startsTag starts).trans taken) further

/-- Markup as lexemes: a single run, unless it is empty. -/
def markup : List UInt8 → List Lexeme
  | [] => []
  | _ :: tail => [raw tail.length]

@[simp]
theorem width_markup (bytes : List UInt8) : width (markup bytes) = bytes.length := by
  cases bytes <;> rfl

theorem width_lexemes {word : List UInt8} (plainWord : PlainWord word) (tag : EndTag word) :
    width tag.lexemes = tag.bytes.length := by
  have long := (tag.reads plainWord []).length_eq
  rw [List.append_nil, List.length_nil, Nat.add_zero] at long
  exact long.symm

/-- A verbatim tag, a body and an end tag. -/
structure Verbatim (keyword : String) where
  /-- The tag before the body. -/
  opener : EndTag keyword.toUTF8.data.toList
  /-- The body. -/
  body : List UInt8
  /-- The tag after the body. -/
  ender : EndTag (endWord keyword)
  /-- The keyword is a verbatim one. -/
  known : keyword ∈ verbatimKeywords
  /-- No end tag occurs in the body. -/
  unended : Unended (endWord keyword) body

namespace Verbatim

variable {keyword : String} (verbatim : Verbatim keyword)

/-- All bytes in order. -/
def bytes : List UInt8 := verbatim.opener.bytes ++ (verbatim.body ++ verbatim.ender.bytes)

/-- Both tags and the body between them. -/
def lexemes : List Lexeme :=
  verbatim.opener.lexemes ++ (markup verbatim.body ++ verbatim.ender.lexemes)

theorem reads_body (rest : List UInt8) :
    Reads (.verbatim keyword) (verbatim.body ++ (verbatim.ender.bytes ++ rest))
      (markup verbatim.body ++ verbatim.ender.lexemes) .markup rest := by
  have plainWord := plainWord_endWord verbatim.known
  have ended := verbatim.ender.reads plainWord rest
  have starts := verbatim.ender.starts plainWord rest
  rw [closing_of_endWord verbatim.known] at ended
  cases body_eq : verbatim.body with
  | nil => exact reads_verbatim_of_starts starts ended
  | cons byte tail =>
      have passes : ∀ earlier later, byte :: tail = earlier ++ later → later ≠ [] →
          startsTag (endWord keyword) (later ++ (verbatim.ender.bytes ++ rest)) = false :=
        fun _ _ split => verbatim.unended.not_startsTag plainWord _ rest (body_eq.trans split)
      have distance := distanceTo_of_forall
        (fun earlier later split => passes (byte :: earlier) later (congrArg (byte :: ·) split))
        starts
      have taken : next (.verbatim keyword) byte (tail ++ (verbatim.ender.bytes ++ rest)) =
          (raw tail.length, .markup) := by
        rw [← distance]
        exact ofVerbatim_of_not_startsTag
          (Bool.eq_false_iff.mp (passes [] _ rfl (List.cons_ne_nil _ _)))
      rw [markup, List.singleton_append, List.cons_append]
      refine .step taken ?_
      rwa [raw, List.drop_left]

/-- Whatever the body holds and whatever follows, it is read as a single run. -/
theorem reads (rest : List UInt8) :
    Reads .markup (verbatim.bytes ++ rest) verbatim.lexemes .markup rest := by
  have opened := verbatim.opener.reads (plainWord_known verbatim.known)
    (verbatim.body ++ (verbatim.ender.bytes ++ rest))
  rw [closing_of_known verbatim.known] at opened
  have joined := opened.append (verbatim.reads_body rest)
  rwa [bytes, List.append_assoc, List.append_assoc]

end Verbatim
end Lexeme

/-! ### The pieces -/

namespace Piece

open Lexeme

/-- The piece that a tag of a single word is. -/
def ofEndTag {word : List UInt8} (start : Nat) (tag : EndTag word) : Piece :=
  let body := start + (tag.openMark.length + 2)
  ⟨.region .tag, ⟨start, start + tag.bytes.length⟩, ⟨body, body + tag.inside.length⟩, true⟩

theorem foldl_endTag {word : List UInt8} (plainWord : PlainWord word) (start : Nat)
    (tag : EndTag word) (grouping : Grouping) :
    (placeAll start tag.lexemes).foldl Grouping.step grouping =
      ⟨(grouping.pieces ++ (grouping.pending.finish start).toArray).push (ofEndTag start tag),
        .nothing⟩ := by
  obtain ⟨pieces, pending⟩ := grouping
  have filled : 1 ≤ tag.inside.length :=
    List.length_pos_iff.mpr (tag.inside_ne_nil plainWord)
  have inner : tag.inside.length - 1 + 1 = tag.inside.length := Nat.sub_add_cancel filled
  have wide := Lexeme.width_lexemes plainWord tag
  simp only [EndTag.lexemes, width_cons, width_nil, Lexeme.length, raw, inner] at wide
  have stop_eq : start + (tag.openMark.length + 1 + 1) + tag.inside.length +
      (tag.closeMark.length + 1 + 1) = start + tag.bytes.length := by omega
  simp only [EndTag.lexemes, placeAll, List.foldl_cons, List.foldl_nil, Grouping.step, place,
    Lexeme.length, raw, inner, Pending.extend, stop_eq]
  rfl

/-- The pieces of a verbatim tag, its body and its end tag. -/
def ofVerbatim {keyword : String} (verbatim : Verbatim keyword) : List Piece :=
  let opened := verbatim.opener.bytes.length
  let ended := opened + verbatim.body.length
  ofEndTag 0 verbatim.opener ::
    ((if verbatim.body = [] then [] else [text ⟨opened, ended⟩]) ++ [ofEndTag ended verbatim.ender])

theorem ofLexemes_verbatim {keyword : String} (verbatim : Verbatim keyword) :
    Grouping.ofLexemes verbatim.lexemes = ⟨(ofVerbatim verbatim).toArray, .nothing⟩ := by
  have plain_opener := plainWord_known verbatim.known
  have plain_ender := plainWord_endWord verbatim.known
  rw [Grouping.ofLexemes, Verbatim.lexemes, placeAll_append, placeAll_append, List.foldl_append,
    List.foldl_append, foldl_endTag plain_opener, foldl_endTag plain_ender,
    Lexeme.width_lexemes plain_opener, width_markup]
  cases body_eq : verbatim.body with
  | nil => simp [markup, placeAll, ofVerbatim, body_eq, Pending.finish]
  | cons byte tail =>
      simp [markup, placeAll, ofVerbatim, body_eq, Pending.finish, Grouping.step, place, raw,
        Pending.extend, text, Lexeme.length]

end Piece
end TwigTemplate
