import TwigTemplate.Literal

/-!
# What a quoted literal holds

Between its quotes a literal holds backslashes with the bytes that they hide, and other bytes that
are no quotes of its kind.  The search for the closing quote finds the only one that ends such a
text.
-/

namespace TwigTemplate
namespace Literal

/-- The bytes may stand between two such quotes. -/
inductive Inside (quote : UInt8) : List UInt8 → Prop
  /-- The literal is empty. -/
  | nil : Inside quote []
  /-- A backslash hides the byte after it. -/
  | hidden (byte : UInt8) {rest : List UInt8} (inside : Inside quote rest) :
      Inside quote (Byte.backslash :: byte :: rest)
  /-- Other bytes stand for themselves. -/
  | plain {byte : UInt8} {rest : List UInt8} (no_backslash : byte ≠ Byte.backslash)
      (no_quote : byte ≠ quote) (inside : Inside quote rest) : Inside quote (byte :: rest)

/-- The literal whose opening quote has been read is closed somewhere in the bytes. -/
def Closed (quote : UInt8) (bytes : List UInt8) : Prop :=
  ∃ inside rest, bytes = inside ++ quote :: rest ∧ Inside quote inside

variable {quote : UInt8} {bytes inside : List UInt8} {length : Nat}

theorem remainder?_go_hidden (byte : UInt8) (tail : List UInt8) (passed : Nat) :
    remainder?.go quote false (Byte.backslash :: byte :: tail) passed =
      remainder?.go quote false tail (passed + 2) := rfl

theorem remainder?_go_plain {byte : UInt8} (no_backslash : byte ≠ Byte.backslash)
    (no_quote : byte ≠ quote) (tail : List UInt8) (passed : Nat) :
    remainder?.go quote false (byte :: tail) passed =
      remainder?.go quote false tail (passed + 1) := by
  simp [remainder?.go, no_backslash, no_quote]

theorem remainder?_go_quote (quotes : Byte.isQuote quote = true) (tail : List UInt8)
    (passed : Nat) : remainder?.go quote false (quote :: tail) passed = some (passed + 1) := by
  have no_backslash : quote ≠ Byte.backslash := by
    rintro rfl
    cases quotes
  simp [remainder?.go, no_backslash]

theorem exists_inside_of_go {bytes : List UInt8} {passed : Nat}
    (closed : remainder?.go quote false bytes passed = some length) :
    ∃ inside rest, bytes = inside ++ quote :: rest ∧ Inside quote inside ∧
      length = passed + (inside.length + 1) := by
  match bytes with
  | [] => cases closed
  | byte :: tail =>
    by_cases hides : byte = Byte.backslash
    · subst hides
      match tail with
      | [] => cases closed
      | next :: tail =>
        rw [remainder?_go_hidden] at closed
        obtain ⟨inside, rest, rfl, within, rfl⟩ := exists_inside_of_go closed
        refine ⟨_, rest, rfl, .hidden next within, ?_⟩
        simp only [List.length_cons]
        omega
    by_cases closes : byte = quote
    · subst closes
      simp only [remainder?.go, hides, beq_iff_eq, if_false, if_true, Bool.false_eq_true] at closed
      exact ⟨[], tail, rfl, .nil, (Option.some.inj closed).symm⟩
    · rw [remainder?_go_plain hides closes] at closed
      obtain ⟨inside, rest, rfl, within, rfl⟩ := exists_inside_of_go closed
      refine ⟨_, rest, rfl, .plain hides closes within, ?_⟩
      simp only [List.length_cons]
      omega

theorem Inside.remainder?_go (within : Inside quote inside) (quotes : Byte.isQuote quote = true)
    (rest : List UInt8) (passed : Nat) :
    remainder?.go quote false (inside ++ quote :: rest) passed =
      some (passed + (inside.length + 1)) := by
  induction within generalizing passed with
  | nil => exact remainder?_go_quote quotes rest passed
  | hidden byte _ ih =>
      simp only [List.cons_append, remainder?_go_hidden, ih, List.length_cons]
      congr 1
      omega
  | plain no_backslash no_quote _ ih =>
      simp only [List.cons_append, remainder?_go_plain no_backslash no_quote, ih, List.length_cons]
      congr 1
      omega

/-- The search finds the quote that ends the literal. -/
theorem remainder?_eq_some_iff (quotes : Byte.isQuote quote = true) :
    remainder? quote bytes = some length ↔
      ∃ inside rest, bytes = inside ++ quote :: rest ∧ Inside quote inside ∧
        length = inside.length + 1 := by
  rw [remainder?]
  constructor
  · intro closed
    simpa only [Nat.zero_add] using exists_inside_of_go closed
  · rintro ⟨inside, rest, rfl, within, rfl⟩
    simpa only [Nat.zero_add] using within.remainder?_go quotes rest 0

/-- The search fails on a literal that is never closed. -/
theorem remainder?_eq_none_iff (quotes : Byte.isQuote quote = true) :
    remainder? quote bytes = none ↔ ¬ Closed quote bytes := by
  rw [Option.eq_none_iff_forall_ne_some]
  constructor
  · rintro missed ⟨inside, rest, split, within⟩
    exact missed _ ((remainder?_eq_some_iff quotes).mpr ⟨inside, rest, split, within, rfl⟩)
  · intro unclosed length closed
    obtain ⟨inside, rest, split, within, _⟩ := (remainder?_eq_some_iff quotes).mp closed
    exact unclosed ⟨inside, rest, split, within⟩

/-- Only one quote ends a literal. -/
theorem Inside.unique {other rest later : List UInt8} (within : Inside quote inside)
    (others : Inside quote other) (quotes : Byte.isQuote quote = true)
    (same : inside ++ quote :: rest = other ++ quote :: later) : inside = other ∧ rest = later := by
  have first := within.remainder?_go quotes rest 0
  rw [same, others.remainder?_go quotes later 0, Nat.zero_add, Nat.zero_add] at first
  have long : inside.length = other.length := (Nat.succ.inj (Option.some.inj first)).symm
  obtain ⟨inside_eq, rest_eq⟩ := List.append_inj same long
  exact ⟨inside_eq, (List.cons.inj rest_eq).2⟩

/-- Where nothing is hidden, the bytes that may stand between two quotes are those without one. -/
theorem inside_iff_not_mem (unhidden : Byte.backslash ∉ inside) :
    Inside quote inside ↔ quote ∉ inside := by
  constructor
  · intro within
    induction within with
    | nil => exact List.not_mem_nil
    | hidden => exact absurd List.mem_cons_self unhidden
    | plain _ no_quote _ ih =>
        rw [List.mem_cons, not_or] at unhidden ⊢
        exact ⟨no_quote.symm, ih unhidden.2⟩
  · intro apart
    induction inside with
    | nil => exact .nil
    | cons byte inside ih =>
        rw [List.mem_cons, not_or] at unhidden apart
        exact .plain (Ne.symm unhidden.1) (Ne.symm apart.1) (ih unhidden.2 apart.2)

end Literal
end TwigTemplate
