/-!
# Bisection

Searching an ordered sequence by halving it.
-/

namespace TwigTemplate

/-- The first of `size` indices at which `below` fails, when it holds up to some index and not from
there on.  On other predicates the answer is where halving ends up. -/
def partitionPoint (below : Nat → Bool) (size : Nat) : Nat :=
  if size = 0 then 0
  else
    let base := narrow 0 size
    if below base then base + 1 else base
where
  /-- Halve the `width` indices from `base` until one is left. -/
  narrow (base width : Nat) : Nat :=
    if width ≤ 1 then base
    else if below (base + width / 2) then narrow (base + width / 2) (width - width / 2)
    else narrow base (width - width / 2)
  termination_by width
  decreasing_by all_goals omega

theorem narrow_bounds (below : Nat → Bool) (base width : Nat) (nonempty : 0 < width) :
    base ≤ partitionPoint.narrow below base width ∧
      partitionPoint.narrow below base width < base + width := by
  fun_induction partitionPoint.narrow below base width with
  | case1 base width small => exact ⟨Nat.le_refl base, by omega⟩
  | case2 base width large holds ih =>
    have bounds := ih (by omega)
    omega
  | case3 base width large fails ih =>
    have bounds := ih (by omega)
    omega

/-- Halving moves away from the first index only to an index where the predicate holds. -/
theorem below_narrow (below : Nat → Bool) (base width : Nat)
    (moved : partitionPoint.narrow below base width ≠ base) :
    below (partitionPoint.narrow below base width) := by
  fun_induction partitionPoint.narrow below base width with
  | case1 base width small => exact absurd rfl moved
  | case2 base width large holds ih =>
    by_cases stays : partitionPoint.narrow below (base + width / 2) (width - width / 2) =
        base + width / 2
    · rw [stays]
      exact holds
    · exact ih stays
  | case3 base width large fails ih => exact ih moved

theorem not_below_of_narrow_lt (below : Nat → Bool) (base width index : Nat)
    (ordered : ∀ i j, i ≤ j → below j → below i)
    (after : partitionPoint.narrow below base width < index) (inside : index < base + width) :
    below index = false := by
  fun_induction partitionPoint.narrow below base width with
  | case1 base width small => omega
  | case2 base width large holds ih => exact ih after (by omega)
  | case3 base width large fails ih =>
    by_cases near : index < base + (width - width / 2)
    · exact ih after near
    · have far : base + width / 2 ≤ index := by omega
      exact Bool.eq_false_iff.mpr fun holds => fails (ordered _ _ far holds)

theorem partitionPoint_le (below : Nat → Bool) (size : Nat) : partitionPoint below size ≤ size := by
  rw [partitionPoint]
  split
  · exact Nat.zero_le size
  · have bounds := narrow_bounds below 0 size (by omega)
    dsimp only
    split <;> omega

/-- On a predicate that holds up to some index and not from there on, bisection finds that index. -/
theorem lt_partitionPoint_iff (below : Nat → Bool) (size index : Nat)
    (ordered : ∀ i j, i ≤ j → below j → below i) :
    index < partitionPoint below size ↔ index < size ∧ below index := by
  rw [partitionPoint]
  split
  · omega
  · have bounds := narrow_bounds below 0 size (by omega)
    dsimp only
    constructor
    · intro found
      split at found
      · rename_i holds
        exact ⟨by omega, ordered _ _ (Nat.le_of_lt_succ found) holds⟩
      · rename_i fails
        have moved : partitionPoint.narrow below 0 size ≠ 0 := by omega
        exact absurd (below_narrow below 0 size moved) fails
    · rintro ⟨inside, holds⟩
      by_cases after : partitionPoint.narrow below 0 size < index
      · have fails := not_below_of_narrow_lt below 0 size index ordered after (by omega)
        exact absurd holds (Bool.eq_false_iff.mp fails)
      · split
        · omega
        · rename_i fails
          by_cases same : index = partitionPoint.narrow below 0 size
          · exact absurd (same ▸ holds) fails
          · omega

end TwigTemplate
