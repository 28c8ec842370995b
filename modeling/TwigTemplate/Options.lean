/-!
# Options

What a user may configure: tags beyond the built-in ones, and the file extensions of templates.
-/

namespace TwigTemplate

/-- Choices of the user. -/
structure Options where
  /-- Further tags that open a body. -/
  bodyTags : List String
  /-- Further tags that stand alone and mean nothing to the structure of a template. -/
  inlineTags : List String
  /-- Extensions of files that are templates. -/
  extensions : List String
  deriving DecidableEq, Repr

namespace Options

/-- The choices that hold when the user makes none. -/
def default : Options := ⟨[], [], ["twig"]⟩

instance : Inhabited Options := ⟨default⟩

/-- Built-in tags that open a body and have no structure of their own. -/
def builtInBodyTags : List String :=
  ["apply", "autoescape", "cache", "embed", "filter", "guard", "sandbox", "spaceless", "verbatim",
    "raw", "with"]

/-- Built-in tags that stand alone. -/
def builtInInlineTags : List String := ["do", "flush", "deprecated", "types"]

/-- The keyword opens a body. -/
def opensBody (options : Options) (keyword : String) : Bool :=
  builtInBodyTags.contains keyword || options.bodyTags.contains keyword

/-- The keyword stands alone. -/
def standsAlone (options : Options) (keyword : String) : Bool :=
  builtInInlineTags.contains keyword || options.inlineTags.contains keyword

end Options
end TwigTemplate
