import TwigTemplate.Proofs.Tag.Relocation
import TwigTemplate.Proofs.Word.Place

/-!
# What a tag means depends on its body

Two sources with the same words in a body, and the same text wherever these words lie, give the same
meaning to a tag with that body.
-/

namespace TwigTemplate
namespace Tag

/-- The two sources have the same text wherever some of the words lie. -/
def Agree (left right : Source) (words : List Word) : Prop :=
  ∀ part, part ⊆ words → Excerpt.covering? left part = Excerpt.covering? right part

/-- Words with a text of their own mean the same in all sources that agree on them. -/
theorem ofBody_congr (options : Options) {left right : Source} {body : Span}
    (same : Word.split left body = Word.split right body)
    (agree : Agree left right (Word.split right body)) :
    ofBody options left body = ofBody options right body := by
  have keeps := Relocation.keepsOffsets_shift_zero
  have unmoved (words : List Word) : words.map (·.relocate (.shift 0 0)) = words := by
    simp [keeps.word_eq]
  have carried : Carried (.shift 0 0) right left (Word.split right body) := by
    intro part among
    rw [unmoved, keeps.map_excerpt_eq, agree part among]
  rw [ofBody_relocate options (same.trans (unmoved _).symm) carried, keeps.tag_eq]

end Tag
end TwigTemplate
