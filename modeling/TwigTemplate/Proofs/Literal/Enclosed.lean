import TwigTemplate.Proofs.Word.Literal

/-!
# What literals enclose

Bytes are read from the left: those outside of literals stand for themselves, and a quote goes with
the one that ends its literal.  So the literal around a place, if there is one, is known from what
has been read before it.
-/

namespace TwigTemplate
namespace Literal

/-- All literals in the bytes are closed. -/
inductive Complete : List UInt8 → Prop
  /-- There are none. -/
  | nil : Complete []
  /-- A byte stands outside of literals. -/
  | plain {byte : UInt8} {rest : List UInt8} (other : Byte.isQuote byte = false)
      (further : Complete rest) : Complete (byte :: rest)
  /-- A literal is closed. -/
  | closed {quote : UInt8} {inside rest : List UInt8} (quotes : Byte.isQuote quote = true)
      (within : Inside quote inside) (further : Complete rest) :
      Complete (quote :: (inside ++ quote :: rest))

/-- The place lies behind the opening quote of a literal, and before its end or, if the literal is
never closed, anywhere. -/
def Encloses (bytes : List UInt8) (place : Nat) : Prop :=
  ∃ front quote rest, bytes = front ++ quote :: rest ∧ Complete front ∧
    Byte.isQuote quote = true ∧ front.length < place ∧
      ((∃ inside after, rest = inside ++ quote :: after ∧ Inside quote inside ∧
          place < front.length + inside.length + 2) ∨
        ¬ Closed quote rest)

variable {byte quote : UInt8} {inside bytes rest run : List UInt8} {place : Nat}

/-! ### Closed literals -/

theorem complete_cons_of_plain (other : Byte.isQuote byte = false) :
    Complete (byte :: rest) ↔ Complete rest := by
  refine ⟨fun complete => ?_, Complete.plain other⟩
  cases complete with
  | plain _ further => exact further
  | closed quotes =>
      rw [other] at quotes
      cases quotes

theorem complete_cons_of_isQuote (quotes : Byte.isQuote quote = true) :
    Complete (quote :: rest) ↔
      ∃ length ∈ remainder? quote rest, Complete (rest.drop length) := by
  constructor
  · intro complete
    cases complete with
    | plain other =>
        rw [quotes] at other
        cases other
    | @closed _ inside rest _ within further =>
        refine ⟨_, (remainder?_eq_some_iff quotes).mpr ⟨inside, rest, rfl, within, rfl⟩, ?_⟩
        rwa [List.drop_length_add_append]
  · rintro ⟨length, found, further⟩
    obtain ⟨inside, after, rfl, within, rfl⟩ := (remainder?_eq_some_iff quotes).mp found
    rw [List.drop_length_add_append] at further
    exact .closed quotes within further

/-- Whether all literals in the bytes are closed. -/
def isComplete : List UInt8 → Bool
  | [] => true
  | byte :: rest =>
    if Byte.isQuote byte then
      (remainder? byte rest).any fun length => isComplete (rest.drop length)
    else isComplete rest
termination_by bytes => bytes.length
decreasing_by all_goals simp only [List.length_cons, List.length_drop]; omega

theorem isComplete_iff {bytes : List UInt8} : isComplete bytes = true ↔ Complete bytes := by
  match bytes with
  | [] => exact iff_of_true (by rw [isComplete]) .nil
  | byte :: rest =>
    rw [isComplete]
    split
    · rename_i quotes
      rw [complete_cons_of_isQuote quotes, Option.any_eq_true]
      exact exists_congr fun length => and_congr_right fun _ => isComplete_iff
    · rename_i other
      rw [complete_cons_of_plain (Bool.eq_false_iff.mpr other), isComplete_iff]
termination_by bytes.length
decreasing_by all_goals simp only [List.length_cons, List.length_drop]; omega

instance (bytes : List UInt8) : Decidable (Complete bytes) := decidable_of_iff _ isComplete_iff

/-! ### Places -/

theorem not_encloses_zero : ¬ Encloses bytes 0 := by
  rintro ⟨front, quote, rest, -, -, -, below, -⟩
  exact Nat.not_lt_zero _ below

/-- Bytes outside of literals enclose nothing. -/
theorem encloses_cons_of_plain (other : Byte.isQuote byte = false) :
    Encloses (byte :: rest) (place + 1) ↔ Encloses rest place := by
  constructor
  · rintro ⟨front, quote, after, split, complete, quotes, above, ends⟩
    cases complete with
    | nil =>
        obtain ⟨rfl, -⟩ := List.cons.inj split
        rw [other] at quotes
        cases quotes
    | @plain _ front _ further =>
        obtain ⟨rfl, rfl⟩ := List.cons.inj split
        rw [List.length_cons] at above ends
        refine ⟨front, quote, after, rfl, further, quotes, Nat.lt_of_succ_lt_succ above, ?_⟩
        refine ends.imp_left ?_
        rintro ⟨inside, later, rfl, within, below⟩
        exact ⟨inside, later, rfl, within, by omega⟩
    | closed opening =>
        obtain ⟨rfl, -⟩ := List.cons.inj split
        rw [other] at opening
        cases opening
  · rintro ⟨front, quote, after, rfl, complete, quotes, above, ends⟩
    refine ⟨byte :: front, quote, after, rfl, .plain other complete, quotes,
      Nat.succ_lt_succ above, ends.imp_left ?_⟩
    rintro ⟨inside, later, rfl, within, below⟩
    exact ⟨inside, later, rfl, within, by rw [List.length_cons]; omega⟩

theorem encloses_append_of_plain (plain : Plain run) :
    Encloses (run ++ rest) (run.length + place) ↔ Encloses rest place := by
  induction run with
  | nil => rw [List.nil_append, List.length_nil, Nat.zero_add]
  | cons byte run ih =>
      rw [Plain, List.forall_mem_cons] at plain
      rw [List.cons_append, List.length_cons, Nat.add_right_comm, encloses_cons_of_plain plain.1]
      exact ih plain.2

/-- No place in a run without quotes is enclosed. -/
theorem not_encloses_of_plain (plain : Plain run) (below : place ≤ run.length) :
    ¬ Encloses (run ++ rest) place := by
  induction run generalizing place with
  | nil =>
      obtain rfl := Nat.le_zero.mp below
      exact not_encloses_zero
  | cons byte run ih =>
      cases place with
      | zero => exact not_encloses_zero
      | succ place =>
          rw [Plain, List.forall_mem_cons] at plain
          rw [List.cons_append, encloses_cons_of_plain plain.1]
          exact ih plain.2 (Nat.le_of_succ_le_succ below)

section Quotes

variable (quotes : Byte.isQuote quote = true)
include quotes

/-- A literal that is never closed encloses all places behind its quote. -/
theorem encloses_of_not_closed (missing : ¬ Closed quote rest) (above : 0 < place) :
    Encloses (quote :: rest) place :=
  ⟨[], quote, rest, rfl, .nil, quotes, above, .inr missing⟩

/-- What has been read before a quote is nothing, or it goes on behind the first literal. -/
theorem Complete.eq_nil_or_behind {front after : List UInt8} {other : UInt8}
    (complete : Complete front) (within : Inside quote inside)
    (split : quote :: (inside ++ quote :: rest) = front ++ other :: after) :
    front = [] ∧ other = quote ∧ after = inside ++ quote :: rest ∨
      ∃ later, front = quote :: (inside ++ quote :: later) ∧ rest = later ++ other :: after ∧
        Complete later := by
  cases complete with
  | nil =>
      obtain ⟨rfl, rfl⟩ := List.cons.inj split
      exact .inl ⟨rfl, rfl, rfl⟩
  | plain plain =>
      obtain ⟨rfl, -⟩ := List.cons.inj split
      rw [quotes] at plain
      cases plain
  | @closed _ between later _ betwixt further =>
      obtain ⟨rfl, same⟩ := List.cons.inj split
      rw [List.append_eq, List.append_assoc, List.cons_append] at same
      obtain ⟨rfl, rfl⟩ := within.unique betwixt quotes same
      exact .inr ⟨later, rfl, rfl, further⟩

/-- The first literal ends where its closing quote is. -/
theorem Inside.lt_of_ends (within : Inside quote inside)
    (ends : (∃ between later, inside ++ quote :: rest = between ++ quote :: later ∧
        Inside quote between ∧ place < between.length + 2) ∨
      ¬ Closed quote (inside ++ quote :: rest)) :
    place < inside.length + 2 := by
  rcases ends with ⟨between, later, same, betwixt, below⟩ | missing
  · obtain ⟨rfl, -⟩ := within.unique betwixt quotes same
    exact below
  · exact absurd ⟨inside, rest, rfl, within⟩ missing

/-- A closed literal encloses the places between its ends. -/
theorem encloses_iff_of_le (within : Inside quote inside) (above : 0 < place)
    (below : place ≤ inside.length + 2) :
    Encloses (quote :: (inside ++ quote :: rest)) place ↔ place < inside.length + 2 := by
  constructor
  · rintro ⟨front, other, after, split, complete, -, passed, ends⟩
    rcases complete.eq_nil_or_behind quotes within split with ⟨rfl, rfl, rfl⟩ | ⟨later, rfl, -⟩
    · exact within.lt_of_ends quotes (by simpa using ends)
    · simp only [List.length_cons, List.length_append] at passed
      omega
  · intro last
    exact ⟨[], quote, _, rfl, .nil, quotes, above, .inl ⟨inside, rest, rfl, within, by simpa⟩⟩

/-- Behind a closed literal, what follows decides. -/
theorem encloses_add_iff (within : Inside quote inside) :
    Encloses (quote :: (inside ++ quote :: rest)) (inside.length + 2 + place) ↔
      Encloses rest place := by
  constructor
  · rintro ⟨front, other, after, split, complete, other_quotes, passed, ends⟩
    rcases complete.eq_nil_or_behind quotes within split with
      ⟨rfl, rfl, rfl⟩ | ⟨later, rfl, rfl, further⟩
    · have last := within.lt_of_ends quotes (by simpa using ends)
      omega
    · simp only [List.length_cons, List.length_append] at passed ends
      refine ⟨later, other, after, rfl, further, other_quotes, by omega, ends.imp_left ?_⟩
      rintro ⟨last, later, rfl, inner, below⟩
      exact ⟨last, later, rfl, inner, by omega⟩
  · rintro ⟨front, other, after, rfl, complete, other_quotes, passed, ends⟩
    refine ⟨quote :: (inside ++ quote :: front), other, after, by simp,
      .closed quotes within complete, other_quotes, ?_, ends.imp_left ?_⟩
    · simp only [List.length_cons, List.length_append]
      omega
    · rintro ⟨last, later, rfl, inner, below⟩
      refine ⟨last, later, rfl, inner, ?_⟩
      simp only [List.length_cons, List.length_append]
      omega

end Quotes

end Literal
end TwigTemplate
