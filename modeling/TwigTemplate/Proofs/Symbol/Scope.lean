import TwigTemplate.Proofs.Binding.Visible
import TwigTemplate.Proofs.Symbol.Order

/-!
# Names in scope are symbols

Bindings are found along the path of bodies to a cursor, symbols by walking the whole template.
Both record the same declarations, so the symbol where a bound name was written is its declaration.
-/

namespace TwigTemplate

open Statement

/-- All bodies of a template hold statements of it. -/
theorem BodyOf.subset_forest {root body : List Statement} {opener limit : Option Nat}
    (within : BodyOf root opener limit body) : body ⊆ forest root := by
  induction within with
  | root => exact Statement.subset_forest root
  | segment around member part ih =>
      have children := List.Subset.trans (body_subset_children part) (Statement.subset_forest _)
      exact List.Subset.trans children (forest_subset_of_mem_forest (ih member))

/-- What a name that is bound in this way is as a symbol. -/
def BindingKind.symbolKind : BindingKind → SymbolKind
  | .loopVariable => .loopVariable
  | .parameter => .parameter
  | .library => .libraryAlias
  | .importedName => .importedName
  | .assigned => .assigned

/-- The symbol is the name as it is written where it is bound. -/
structure Symbol.Declares (symbol : Symbol) (binding : Binding) : Prop where
  /-- It is the same name. -/
  name : symbol.name = binding.name
  /-- It is bound where it is written. -/
  span : binding.span = some symbol.span
  /-- The same piece declares it. -/
  piece : symbol.piece = binding.piece
  /-- It stands for what the name is bound as. -/
  kind : symbol.kind = binding.kind.symbolKind

theorem Symbol.declares_ofName (kind : BindingKind) (piece : Nat) (until? : Option Nat)
    (detail : Option String) (name : Excerpt) :
    (ofName kind.symbolKind piece detail name).Declares (.ofExcerpt kind piece until? name) :=
  ⟨rfl, rfl, rfl, rfl⟩

namespace Binding

variable {cursor position : Nat} {until? : Option Nat} {statement : Statement} {binding : Binding}

/-- Names bound after a statement are among its symbols. -/
theorem exists_symbol_of_exports (exports : Exports cursor until? statement binding position) :
    ∃ symbol ∈ Symbol.ofStatement statement, symbol.Declares binding := by
  cases exports with
  | library earlier =>
      exact ⟨_, List.mem_append_right _ (List.mem_singleton_self _),
        Symbol.declares_ofName .library _ _ _ _⟩
  | importedName earlier listed =>
      exact ⟨_, List.mem_append_right _ (List.mem_map_of_mem (List.mem_of_getElem? listed)),
        Symbol.declares_ofName .importedName _ _ _ _⟩
  | assigned earlier listed =>
      exact ⟨_, List.mem_map_of_mem (List.mem_of_getElem? listed),
        Symbol.declares_ofName .assigned _ _ _ _⟩
  | captured ended listed =>
      exact ⟨_, List.mem_map_of_mem (List.mem_of_getElem? listed),
        Symbol.declares_ofName .assigned _ _ _ _⟩

/-- Names that a header binds are among its symbols, if they are written at all. -/
theorem exists_symbol_of_introduces (introduces : Introduces until? statement binding position)
    {span : Span} (written : binding.span = some span) :
    ∃ symbol ∈ Symbol.ofStatement statement, symbol.Declares binding := by
  cases introduces with
  | loopVariable listed =>
      exact ⟨_, List.mem_map_of_mem (List.mem_of_getElem? listed),
        Symbol.declares_ofName .loopVariable _ _ _ _⟩
  | loop => cases written
  | parameter listed =>
      exact ⟨_, List.mem_append_right _ (List.mem_map_of_mem (List.mem_of_getElem? listed)),
        Symbol.declares_ofName .parameter _ _ _ _⟩

/-- A name that is live is a symbol of some statement, if it is written at all. -/
theorem exists_symbol_of_live {root : List Statement}
    (live : Live root cursor binding position) {span : Span} (written : binding.span = some span) :
    ∃ statement ∈ forest root, ∃ symbol ∈ Symbol.ofStatement statement,
      symbol.Declares binding := by
  cases live with
  | exported within _ member exports =>
      exact ⟨_, within.subset_forest member, exists_symbol_of_exports exports⟩
  | introduced within member _ _ _ introduces =>
      exact ⟨_, within.subset_forest member, exists_symbol_of_introduces introduces written⟩

end Binding

namespace Document

variable {document : Document} {offset : Nat} {binding : Binding}

/-- Whatever is in scope is live. -/
theorem exists_live_of_mem_bindingsAt (member : binding ∈ document.bindingsAt offset) :
    ∃ cursor position, Binding.Live document.statements cursor binding position := by
  rw [bindingsAt] at member
  split at member
  · cases member
  · rename_i cursor _
    rw [Binding.gather_eq_foldl, Binding.foldl_add_eq, List.filter_nil, List.nil_append,
      List.mem_map] at member
    obtain ⟨⟨_, position⟩, shown, rfl⟩ := member
    exact ⟨cursor, position, Binding.live_of_mem_declared .root ⟨by simp, by simp⟩
      (List.Subset.refl _) ((Binding.unhidden_sublist _).subset shown)⟩

/-- The symbol where a name in scope was written is the declaration that binds it. -/
theorem exists_symbolAt?_of_binding {options : Options} {source : Source} {span : Span}
    (shown : binding ∈ (Document.parse options source).bindingsAt offset)
    (written : binding.span = some span) :
    ∃ symbol, (Document.parse options source).symbolAt? span.start = some symbol ∧
      symbol.name = binding.name ∧ symbol.span = span ∧ symbol.piece = binding.piece ∧
      symbol.kind = binding.kind.symbolKind := by
  obtain ⟨cursor, position, live⟩ := exists_live_of_mem_bindingsAt shown
  obtain ⟨statement, among, symbol, declared, declares⟩ :=
    Binding.exists_symbol_of_live live written
  obtain rfl : symbol.span = span := Option.some.inj (declares.span.symm.trans written)
  have member : symbol ∈ (Document.parse options source).symbols := by
    rw [symbols_eq]
    exact List.mem_flatMap.mpr ⟨statement, among, declared⟩
  have filled := start_lt_of_mem_symbols member
  have touched : symbol.span.touches symbol.span.start = true :=
    Span.touches_iff.mpr ⟨Nat.le_refl _, Nat.le_of_lt filled⟩
  exact ⟨symbol, symbolAt?_eq_some_iff.mpr ⟨member, touched⟩, declares.name, rfl, declares.piece,
    declares.kind⟩

/-- The variable of a loop, seen from the loop. -/
theorem exists_symbolAt?_of_loop_variable :
    let document := Document.parse .default (Source.ofString "\x7b% for a in b %\x7dc")
    let variable_a : Binding := ⟨"a", .loopVariable, some ⟨7, 8⟩, 0, none⟩
    variable_a ∈ document.bindingsAt 17 ∧
      ∃ symbol, document.symbolAt? 7 = some symbol ∧ symbol.name = "a" ∧ symbol.span = ⟨7, 8⟩ ∧
        symbol.piece = 0 ∧ symbol.kind = .loopVariable := by
  intro document variable_a
  have shown : variable_a ∈ document.bindingsAt 17 := by decide +kernel
  exact ⟨shown, exists_symbolAt?_of_binding shown rfl⟩

end Document
end TwigTemplate
