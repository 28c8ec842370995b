import TwigTemplate.LineTable
import TwigTemplate.Proofs.Source

/-!
# Line numbers

The line of an offset is the number of line feeds before it.  The table of line starts ascends, so
that bisection finds this number, and the start of the line is the last one at the offset or before
it.
-/

namespace TwigTemplate

/-- Bisection of a list that ascends counts the entries up to a bound. -/
theorem lt_countP_le_iff {starts : List Nat} (sorted : starts.Pairwise (· < ·))
    {bound index : Nat} :
    index < starts.countP (· ≤ bound) ↔ ∃ start, starts[index]? = some start ∧ start ≤ bound := by
  induction starts generalizing index with
  | nil => simp
  | cons first starts ih =>
      rw [List.pairwise_cons] at sorted
      rw [List.countP_cons]
      by_cases small : first ≤ bound
      · cases index with
        | zero => simp [small]
        | succ index =>
            rw [if_pos (by simpa using small), Nat.add_lt_add_iff_right, ih sorted.2,
              List.getElem?_cons_succ]
      · have none_small : starts.countP (· ≤ bound) = 0 := by
          rw [List.countP_eq_zero]
          intro start member
          have later := sorted.1 start member
          rw [decide_eq_true_iff]
          omega
        rw [none_small, if_neg (by simpa using small)]
        refine iff_of_false (Nat.not_lt_zero index) ?_
        rintro ⟨start, found, below⟩
        rcases List.mem_cons.mp (List.mem_of_getElem? found) with rfl | member
        · exact small below
        · have later := sorted.1 start member
          omega

namespace Source

/-- Number of line feeds before an offset. -/
def lineOf (source : Source) (offset : Nat) : Nat :=
  (source.toList.take offset).count Byte.newline

/-- Number of lines: one more than there are line feeds. -/
def lineCount (source : Source) : Nat := source.toList.count Byte.newline + 1

/-- Lines ascend with the offsets. -/
theorem lineOf_le {source : Source} {earlier later : Nat} (ordered : earlier ≤ later) :
    source.lineOf earlier ≤ source.lineOf later :=
  (List.take_sublist_take_left ordered).count_le Byte.newline

theorem lineOf_lt_lineCount (source : Source) (offset : Nat) :
    source.lineOf offset < source.lineCount :=
  Nat.lt_succ_of_le ((List.take_sublist offset source.toList).count_le Byte.newline)

end Source

namespace LineTable

/-- The starts of the lines after the first one, in bytes that start at an offset. -/
def startsAfter (offset : Nat) : List UInt8 → List Nat
  | [] => []
  | byte :: tail =>
    (if byte == Byte.newline then [offset + 1] else []) ++ startsAfter (offset + 1) tail

theorem toList_collectStarts (offset : Nat) (found : Array Nat) (bytes : List UInt8) :
    (collectStarts offset found bytes).toList = found.toList ++ startsAfter offset bytes := by
  induction bytes generalizing offset found with
  | nil => simp [collectStarts, startsAfter]
  | cons byte tail ih =>
      rw [collectStarts, ih, startsAfter]
      split <;> simp

theorem lt_of_mem_startsAfter {offset start : Nat} {bytes : List UInt8}
    (member : start ∈ startsAfter offset bytes) : offset < start := by
  induction bytes generalizing offset with
  | nil => cases member
  | cons byte tail ih =>
      rcases List.mem_append.mp member with here | later
      · split at here
        · obtain rfl := List.mem_singleton.mp here
          exact Nat.lt_succ_self offset
        · cases here
      · exact Nat.lt_of_succ_lt (ih later)

theorem pairwise_startsAfter (offset : Nat) (bytes : List UInt8) :
    (startsAfter offset bytes).Pairwise (· < ·) := by
  induction bytes generalizing offset with
  | nil => exact List.Pairwise.nil
  | cons byte tail ih =>
      rw [startsAfter]
      split
      · exact List.pairwise_cons.mpr ⟨fun _ later => lt_of_mem_startsAfter later, ih _⟩
      · exact ih _

/-- A line starts behind each line feed. -/
theorem length_startsAfter (offset : Nat) (bytes : List UInt8) :
    (startsAfter offset bytes).length = bytes.count Byte.newline := by
  induction bytes generalizing offset with
  | nil => rfl
  | cons byte tail ih =>
      rw [startsAfter, List.length_append, ih, List.count_cons]
      split <;> simp [Nat.add_comm]

/-- So many lines start within so many bytes as there are line feeds among them. -/
theorem countP_startsAfter (offset count : Nat) (bytes : List UInt8) :
    (startsAfter offset bytes).countP (· ≤ offset + count) =
      (bytes.take count).count Byte.newline := by
  induction bytes generalizing offset count with
  | nil => simp [startsAfter]
  | cons byte tail ih =>
      cases count with
      | zero =>
          rw [List.take_zero, List.count_nil, List.countP_eq_zero]
          intro start member
          have later := lt_of_mem_startsAfter member
          rw [decide_eq_true_iff]
          omega
      | succ count =>
          have shifted := ih (offset + 1) count
          rw [Nat.add_right_comm, Nat.add_assoc] at shifted
          rw [startsAfter, List.countP_append, shifted, List.take_succ_cons, List.count_cons]
          split <;> simp [Nat.add_comm]

theorem startsAfter_append (offset : Nat) (front back : List UInt8) :
    startsAfter offset (front ++ back) =
      startsAfter offset front ++ startsAfter (offset + front.length) back := by
  induction front generalizing offset with
  | nil => rfl
  | cons byte front ih =>
      rw [List.cons_append, startsAfter, startsAfter, ih, List.append_assoc, List.length_cons,
        Nat.add_right_comm, Nat.add_assoc]

section OfSource

variable (source : Source) (offset : Nat)

theorem toList_starts : (ofSource source).starts.toList = 0 :: startsAfter 0 source.toList :=
  toList_collectStarts 0 #[0] source.toList

theorem start?_zero : (ofSource source).start? 0 = some 0 := by
  rw [start?, ← Array.getElem?_toList, toList_starts]
  rfl

variable {source} in
/-- A line starts behind a line feed. -/
theorem start?_of_split {front back : List UInt8}
    (split : source.toList = front ++ Byte.newline :: back) :
    (ofSource source).start? (front.count Byte.newline + 1) = some (front.length + 1) := by
  have passed : (startsAfter 0 front).length = front.count Byte.newline :=
    length_startsAfter 0 front
  rw [start?, ← Array.getElem?_toList, toList_starts, List.getElem?_cons_succ, split,
    startsAfter_append, ← passed, List.getElem?_append_right (Nat.le_refl _), Nat.sub_self,
    Nat.zero_add]
  rfl

theorem pairwise_starts : (ofSource source).starts.toList.Pairwise (· < ·) := by
  rw [toList_starts]
  exact List.pairwise_cons.mpr ⟨fun _ later => lt_of_mem_startsAfter later,
    pairwise_startsAfter 0 source.toList⟩

theorem countP_starts :
    (ofSource source).starts.toList.countP (· ≤ min offset source.size) =
      source.lineOf offset + 1 := by
  have counted := countP_startsAfter 0 (min offset source.size) source.toList
  rw [Source.size_eq_length, ← List.take_eq_take_min, Nat.zero_add] at counted
  rw [toList_starts, List.countP_cons, Source.size_eq_length, counted, Source.lineOf]
  simp

theorem size_ofSource : (ofSource source).size = source.lineCount := by
  rw [size, ← Array.length_toList, toList_starts, List.length_cons, length_startsAfter,
    Source.lineCount]

variable {source offset}

/-- A line starts at an offset or before it if and only if it is not after the line of the
offset. -/
theorem le_lineOf_iff {line : Nat} :
    line ≤ source.lineOf offset ↔
      ∃ start, (ofSource source).start? line = some start ∧ start ≤ min offset source.size := by
  rw [← Nat.lt_succ_iff, Nat.succ_eq_add_one, ← countP_starts,
    lt_countP_le_iff (pairwise_starts source), Array.getElem?_toList]
  rfl

/-- Bisection finds the line of an offset. -/
theorem lineAt_ofSource : (ofSource source).lineAt offset = source.lineOf offset := by
  have below_iff (line : Nat) :
      (ofSource source).starts[line]?.any (· ≤ min offset source.size) = true ↔
        line ≤ source.lineOf offset := by
    rw [le_lineOf_iff, Option.any_eq_true]
    simp only [decide_eq_true_iff]
    rfl
  have found (line : Nat) := lt_partitionPoint_iff
    (fun line => (ofSource source).starts[line]?.any (· ≤ min offset source.size))
    (ofSource source).starts.size line
    (fun i j before below => (below_iff i).mpr (Nat.le_trans before ((below_iff j).mp below)))
  simp only [below_iff] at found
  have last := found (source.lineOf offset)
  have past := found (source.lineOf offset + 1)
  have inside := source.lineOf_lt_lineCount offset
  rw [← size_ofSource, size] at inside
  have source_eq : (ofSource source).source = source := rfl
  rw [lineAt, source_eq]
  omega

end OfSource

end LineTable
end TwigTemplate
