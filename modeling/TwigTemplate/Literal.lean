import TwigTemplate.Byte

/-!
# Quoted literals

Tags and expressions hold literals in single or double quotes.  A backslash hides the byte after
it, whatever that byte is.
-/

namespace TwigTemplate
namespace Literal

/-- Number of bytes of a literal after its opening quote, the closing quote included, or nothing
when the literal is never closed. -/
def remainder? (quote : UInt8) (bytes : List UInt8) : Option Nat :=
  go false bytes 0
where
  /-- Continue the count from `passed` bytes; the next byte may be `hidden`. -/
  go (hidden : Bool) : List UInt8 → Nat → Option Nat
    | [], _ => none
    | byte :: tail, passed =>
      if hidden then go false tail (passed + 1)
      else if byte == Byte.backslash then go true tail (passed + 1)
      else if byte == quote then some (passed + 1)
      else go false tail (passed + 1)

theorem remainder?_go_bounds (quote : UInt8) (hidden : Bool) (bytes : List UInt8)
    (passed length : Nat) (closed : remainder?.go quote hidden bytes passed = some length) :
    passed < length ∧ length ≤ passed + bytes.length := by
  induction bytes generalizing hidden passed with
  | nil => simp [remainder?.go] at closed
  | cons byte tail ih =>
    simp only [remainder?.go] at closed
    simp only [List.length_cons]
    split at closed
    · have bounds := ih _ _ closed
      omega
    split at closed
    · have bounds := ih _ _ closed
      omega
    split at closed
    · cases closed
      omega
    · have bounds := ih _ _ closed
      omega

/-- The closing quote of a literal is among the bytes after its opening quote. -/
theorem remainder?_bounds {quote : UInt8} {bytes : List UInt8} {length : Nat}
    (closed : remainder? quote bytes = some length) : 0 < length ∧ length ≤ bytes.length := by
  have bounds := remainder?_go_bounds quote false bytes 0 length closed
  omega

end Literal
end TwigTemplate
