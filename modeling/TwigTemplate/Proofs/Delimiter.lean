import TwigTemplate.Delimiter

/-!
# Delimiters by their bytes

The tests for delimiters ask whether the bytes of a delimiter come first, perhaps after a trim mark.
So they do not depend on what comes later.
-/

namespace TwigTemplate

/-- One trim mark or none. -/
def Lexeme.TrimMark (mark : List UInt8) : Prop :=
  mark = [] ∨ ∃ byte, Byte.isTrimMark byte = true ∧ mark = [byte]

namespace Delimiter

/-- The bytes of an opening delimiter. -/
def openBytes (delimiter : Delimiter) : List UInt8 := delimiter.openText.toUTF8.data.toList

/-- The bytes of a closing delimiter. -/
def closeBytes (delimiter : Delimiter) : List UInt8 := delimiter.closeText.toUTF8.data.toList

/-- The byte next to the brace of an opening delimiter. -/
def openMark : Delimiter → UInt8
  | tag => Byte.percent
  | expression => Byte.leftBrace
  | comment => Byte.hash

theorem openBytes_eq (delimiter : Delimiter) :
    delimiter.openBytes = [Byte.leftBrace, delimiter.openMark] := by
  cases delimiter <;> rfl

theorem closeBytes_eq (delimiter : Delimiter) :
    delimiter.closeBytes = [delimiter.closeMark, Byte.rightBrace] := by
  cases delimiter <;> rfl

theorem ofMark?_eq_some_iff {mark : UInt8} {delimiter : Delimiter} :
    ofMark? mark = some delimiter ↔ mark = delimiter.openMark := by
  constructor
  · intro opens
    rw [ofMark?] at opens
    split at opens
    · rename_i is_percent
      cases opens
      exact beq_iff_eq.mp is_percent
    split at opens
    · rename_i is_brace
      cases opens
      exact beq_iff_eq.mp is_brace
    split at opens
    · rename_i is_hash
      cases opens
      exact beq_iff_eq.mp is_hash
    · cases opens
  · rintro rfl
    cases delimiter <;> rfl

/-- A delimiter opens where its bytes stand. -/
theorem opener?_eq_some_iff {bytes : List UInt8} {delimiter : Delimiter} :
    opener? bytes = some delimiter ↔ delimiter.openBytes <+: bytes := by
  rw [openBytes_eq]
  match bytes with
  | [] => simp [opener?]
  | [_] => simp [opener?]
  | brace :: mark :: rest =>
    simp only [opener?, List.cons_prefix_cons, List.nil_prefix, and_true]
    rw [Option.ite_none_right_eq_some, ofMark?_eq_some_iff, beq_iff_eq]
    simp only [eq_comm]

/-- A region closes without a trim mark where the bytes of its closing delimiter stand. -/
theorem startsBareClose_iff {bytes : List UInt8} {delimiter : Delimiter} :
    delimiter.startsBareClose bytes = true ↔ delimiter.closeBytes <+: bytes := by
  rw [closeBytes_eq]
  match bytes with
  | [] => simp [startsBareClose]
  | [_] => simp [startsBareClose]
  | mark :: brace :: rest =>
    simp only [startsBareClose, List.cons_prefix_cons, List.nil_prefix, and_true, Bool.and_eq_true,
      beq_iff_eq]
    simp only [eq_comm]

/-- A region closes where its closing delimiter stands, perhaps after a trim mark. -/
theorem startsClose_iff {bytes : List UInt8} {delimiter : Delimiter} :
    delimiter.startsClose bytes = true ↔
      ∃ mark, Lexeme.TrimMark mark ∧ mark ++ delimiter.closeBytes <+: bytes := by
  cases bytes with
  | nil => simp [startsClose, closeBytes_eq]
  | cons byte tail =>
      rw [startsClose, Bool.or_eq_true, Bool.and_eq_true, startsBareClose_iff, startsBareClose_iff]
      constructor
      · rintro (bare | ⟨marked, bare⟩)
        · exact ⟨[], .inl rfl, bare⟩
        · exact ⟨[byte], .inr ⟨byte, marked, rfl⟩, by simpa using bare⟩
      · rintro ⟨mark, rfl | ⟨first, marked, rfl⟩, closes⟩
        · exact .inl closes
        · rw [List.singleton_append, List.cons_prefix_cons] at closes
          obtain ⟨rfl, bare⟩ := closes
          exact .inr ⟨marked, bare⟩

theorem opener?_append {bytes : List UInt8} {delimiter : Delimiter}
    (opens : opener? bytes = some delimiter) (back : List UInt8) :
    opener? (bytes ++ back) = some delimiter :=
  opener?_eq_some_iff.mpr ((opener?_eq_some_iff.mp opens).trans (List.prefix_append bytes back))

theorem startsClose_append {bytes : List UInt8} {delimiter : Delimiter}
    (closes : delimiter.startsClose bytes = true) (back : List UInt8) :
    delimiter.startsClose (bytes ++ back) = true := by
  obtain ⟨mark, trim, stands⟩ := startsClose_iff.mp closes
  exact startsClose_iff.mpr ⟨mark, trim, stands.trans (List.prefix_append bytes back)⟩

end Delimiter
end TwigTemplate
