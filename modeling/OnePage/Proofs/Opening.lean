import OnePage.Proofs.Enclosure
import OnePage.Proofs.WellTyped

/-!
# Scopes that an analysis opens

Lowering a tree opens one scope for each block of the resolved tree, in order, and declares one
symbol for each declaration, in order. The scopes around a block or a declaration are those of the
blocks around it. This holds of every tree of nodes, whatever its shape.
-/

namespace OnePage

namespace ScopeTable

/-- The scopes around each scope. -/
def enclosures (table : ScopeTable) : List (List ScopeId) := table.scopes.toList.map Scope.ancestors

/-- The symbols as they were declared, with their numbers. -/
def declared (table : ScopeTable) : List (Symbol × SymbolId) :=
  (table.symbols.toList.map fun s ↦ { s with initialized := false, used := false }).zipIdx

/-- A name stands for a symbol in a scope just if the symbol was declared there under it. -/
def Filed (table : ScopeTable) : Prop :=
  ∀ scope name symbol, table.lookupLocal? scope name = some symbol ↔
    ∃ entry, table.symbols[symbol]? = some entry ∧ entry.scope = scope ∧ entry.name = name

variable {table next : ScopeTable}

/-- There are scopes around each scope of the table. -/
theorem length_enclosures (table : ScopeTable) :
    table.enclosures.length = table.scopes.size := by
  simp [enclosures]

/-- The scopes around a scope are listed under its number. -/
theorem ancestors_eq (table : ScopeTable) (scope : ScopeId) :
    table.ancestors scope = (table.enclosures[scope]?).getD [] := by
  unfold ancestors enclosures
  rw [List.getElem?_map, Array.getElem?_toList]
  cases table.scopes[scope]? <;> rfl

/-- A new scope is inside its parent and the scopes around that. -/
theorem enclosures_adopt (table : ScopeTable) (scope : ScopeId) :
    (table.adopt scope).2.enclosures = table.enclosures ++ [scope :: table.ancestors scope] := by
  simp [enclosures, adopt]

/-- A declaration changes nothing about which scope is inside which. -/
theorem enclosures_declare (table : ScopeTable) (scope : ScopeId) (type : VarType)
    (token : Token) : (table.declare scope type token).2.enclosures = table.enclosures := by
  apply List.ext_getElem?
  intro i
  simp only [enclosures, declare, List.getElem?_map, Array.getElem?_toList,
    Array.getElem?_modify]
  by_cases h : scope = i
  · rw [if_pos h]
    cases table.scopes[i]? <;> rfl
  · rw [if_neg h]

/-- A declaration adds its symbol at the end, with the next number. -/
theorem declared_declare (table : ScopeTable) (scope : ScopeId) (type : VarType) (token : Token) :
    (table.declare scope type token).2.declared = table.declared ++
      [({ name := token.lexeme, type, token, scope }, table.symbols.size)] := by
  simp [declared, declare, List.zipIdx_append]

/-- Only the marks of symbols differ. -/
structure Remarked (table next : ScopeTable) : Prop where
  scopes : next.scopes = table.scopes
  declared : next.declared = table.declared

private theorem declared_modify (symbols : Array Symbol) (scopes : Array Scope) (symbol : SymbolId)
    (mark : Symbol → Symbol)
    (h : ∀ s, { mark s with initialized := false, used := false } =
      { s with initialized := false, used := false }) :
    declared { scopes, symbols := symbols.modify symbol mark } = declared { scopes, symbols } := by
  unfold declared
  congr 1
  apply List.ext_getElem?
  intro i
  simp only [List.getElem?_map, Array.getElem?_toList, Array.getElem?_modify]
  by_cases hi : symbol = i
  · rw [if_pos hi]
    cases symbols[i]? with
    | none => rfl
    | some s => simp [h s]
  · rw [if_neg hi]

private theorem Remarked.refl (table : ScopeTable) : Remarked table table := ⟨rfl, rfl⟩

/-- Marking a symbol as used changes only a mark. -/
theorem remarked_markUsed (table : ScopeTable) (symbol : SymbolId) :
    Remarked table (table.markUsed symbol) :=
  ⟨rfl, declared_modify _ _ symbol _ fun _ ↦ rfl⟩

/-- Marking a symbol as initialized changes only a mark. -/
theorem remarked_markInitialized (table : ScopeTable) (symbol : SymbolId) :
    Remarked table (table.markInitialized symbol) :=
  ⟨rfl, declared_modify _ _ symbol _ fun _ ↦ rfl⟩

/-- The entry of a symbol, but for its marks, is what was declared. -/
theorem mem_declared {entry : Symbol} {symbol : SymbolId} :
    (entry, symbol) ∈ table.declared ↔ ∃ found, table.symbols[symbol]? = some found ∧
      { found with initialized := false, used := false } = entry := by
  rw [declared, List.mem_zipIdx_iff_getElem?, List.getElem?_map, Array.getElem?_toList,
    Option.map_eq_some_iff]

/-- Filing is a matter of what was declared where. -/
theorem filed_iff : Filed table ↔ ∀ scope name symbol,
    table.lookupLocal? scope name = some symbol ↔
      ∃ entry, (entry, symbol) ∈ table.declared ∧ entry.scope = scope ∧ entry.name = name := by
  have hsame : ∀ scope name symbol,
      (∃ entry, table.symbols[symbol]? = some entry ∧ entry.scope = scope ∧ entry.name = name) ↔
        ∃ entry, (entry, symbol) ∈ table.declared ∧ entry.scope = scope ∧ entry.name = name := by
    intro scope name symbol
    constructor
    · rintro ⟨found, hfound, hscope, hname⟩
      exact ⟨_, mem_declared.mpr ⟨found, hfound, rfl⟩, hscope, hname⟩
    · rintro ⟨entry, hentry, hscope, hname⟩
      obtain ⟨found, hfound, rfl⟩ := mem_declared.mp hentry
      exact ⟨found, hfound, hscope, hname⟩
  simp only [Filed, hsame]

/-- The first table has no symbols and no names. -/
theorem filed_start : Filed .start := by
  intro scope name symbol
  cases scope <;> simp [lookupLocal?, ScopeTable.names, start, Names.find?]

/-- Changes of marks keep the symbols filed. -/
theorem Filed.remarked (h : Filed table) (k : Remarked table next) : Filed next := by
  rw [filed_iff] at h ⊢
  simpa only [lookupLocal?, ScopeTable.names, k.scopes, k.declared] using h

/-- A new scope keeps the symbols filed. -/
theorem Filed.adopt (h : Filed table) (scope : ScopeId) : Filed (table.adopt scope).2 := by
  intro other name symbol
  rw [lookupLocal?, names_adopt]
  exact h other name symbol

/-- A declaration changes what its name stands for in its scope, and nothing else. -/
theorem lookupLocal?_declare (table : ScopeTable) (scope other : ScopeId) (type : VarType)
    (token : Token) (name : String) :
    (table.declare scope type token).2.lookupLocal? other name =
      if scope = other ∧ scope < table.scopes.size ∧ token.lexeme = name then
        some table.symbols.size
      else table.lookupLocal? other name := by
  by_cases hscope : scope = other
  · subst hscope
    by_cases hlt : scope < table.scopes.size
    · rw [lookupLocal?, names_declare_self hlt]
      by_cases hname : token.lexeme = name
      · rw [if_pos ⟨rfl, hlt, hname⟩, ← hname, Names.find?_insert_self]
      · rw [if_neg fun h ↦ hname h.2.2, Names.find?_insert_of_ne _ _ (Ne.symm hname), lookupLocal?]
    · rw [if_neg fun h ↦ hlt h.2.1]
      simp [lookupLocal?, ScopeTable.names, declare, hlt]
  · rw [if_neg fun h ↦ hscope h.1, lookupLocal?, names_declare_of_ne hscope, lookupLocal?]

/-- Declaring a name that is new in the scope files it there. -/
theorem Filed.declare {scope : ScopeId} {token : Token} (h : Filed table)
    (hscope : scope < table.scopes.size) (hnew : table.lookupLocal? scope token.lexeme = none)
    (type : VarType) : Filed (table.declare scope type token).2 := by
  rw [filed_iff] at h ⊢
  intro other name symbol
  rw [declared_declare, lookupLocal?_declare]
  by_cases hsame : scope = other ∧ token.lexeme = name
  · obtain ⟨rfl, rfl⟩ := hsame
    have hnone : ¬∃ entry, (entry, symbol) ∈ table.declared ∧ entry.scope = scope ∧
        entry.name = token.lexeme := by
      rw [← h, hnew]
      simp
    grind
  · rw [if_neg fun hdeclared ↦ hsame ⟨hdeclared.1, hdeclared.2.2⟩, h]
    grind

end ScopeTable

namespace Analysis

open ScopeTable

/-- What lowering in a scope adds to the table: a scope for each block and a symbol for each
declaration of the resolved trees. -/
structure Opened (scope : ScopeId) (table : ScopeTable) (trees : Forest Resolved)
    (next : ScopeTable) : Prop where
  scopes : next.enclosures = table.enclosures ++
    openedBy (Forest.enclosed (scope :: table.ancestors scope) table.scopes.size trees)
  symbols : next.declared = table.declared ++
    declaredBy (Forest.enclosed (scope :: table.ancestors scope) table.scopes.size trees)
  filed : Filed table → Filed next

namespace Opened

variable {scope : ScopeId} {table mid next : ScopeTable} {xs ys trees : Forest Resolved}

private theorem nil (scope : ScopeId) (table : ScopeTable) : Opened scope table [] table :=
  ⟨(List.append_nil _).symm, (List.append_nil _).symm, id⟩

/-- Lowering opens as many scopes as there are blocks in the resolved trees. -/
theorem size_eq (h : Opened scope table xs next) :
    next.scopes.size = table.scopes.size + Forest.blocks xs := by
  have hlength := congrArg List.length h.scopes
  simpa [length_enclosures, length_openedBy_enclosed] using hlength

/-- Lowering leaves the scopes around an existing scope as they are. -/
theorem ancestors_eq (h : Opened scope table xs next) (hscope : scope < table.scopes.size) :
    next.ancestors scope = table.ancestors scope := by
  rw [ScopeTable.ancestors_eq, ScopeTable.ancestors_eq, h.scopes,
    List.getElem?_append_left (by rwa [length_enclosures])]

private theorem append (hscope : scope < table.scopes.size) (h : Opened scope table xs mid)
    (k : Opened scope mid ys next) : Opened scope table (xs ++ ys) next where
  scopes := by
    rw [k.scopes, h.scopes, h.ancestors_eq hscope, h.size_eq, Forest.enclosed_append,
      openedBy_append, List.append_assoc]
  symbols := by
    rw [k.symbols, h.symbols, h.ancestors_eq hscope, h.size_eq, Forest.enclosed_append,
      declaredBy_append, List.append_assoc]
  filed := k.filed ∘ h.filed

/-- A node that neither is a block nor declares anything adds nothing. -/
theorem node {r : Resolved} (hblock : r.isBlock = false)
    (hdeclaration : Tree.declaration? (.node r trees) = none) (h : Opened scope table trees next) :
    Opened scope table [.node r trees] next := by
  refine ⟨?_, ?_, h.filed⟩
  · rw [h.scopes, Forest.enclosed_singleton, Tree.enclosed_other hblock, openedBy_other hblock]
  · rw [h.symbols, Forest.enclosed_singleton, Tree.enclosed_other hblock,
      declaredBy_other hdeclaration]

private theorem block {r : Resolved} (hblock : r.isBlock = true)
    (hdeclaration : r.isDeclaration = false)
    (h : Opened table.scopes.size (table.adopt scope).2 trees next) :
    Opened scope table [.node r trees] next := by
  have hsize : (table.adopt scope).2.scopes.size = table.scopes.size + 1 := by
    simp [ScopeTable.adopt]
  have hscopes := h.scopes
  have hsymbols := h.symbols
  rw [ancestors_adopt_self, hsize] at hscopes hsymbols
  refine ⟨?_, ?_, fun hfiled ↦ h.filed (hfiled.adopt scope)⟩
  · rw [hscopes, enclosures_adopt, Forest.enclosed_singleton, Tree.enclosed_block hblock,
      openedBy_block hblock, List.append_assoc, List.singleton_append]
  · rw [hsymbols, Forest.enclosed_singleton, Tree.enclosed_block hblock,
      declaredBy_other (Tree.declaration?_eq_none hdeclaration)]
    rfl

private theorem declare {type name : Token} (hscope : scope < table.scopes.size)
    (hnew : table.lookupLocal? scope name.lexeme = none) :
    Opened scope table [.node { node := .branch .varDecl } [.leaf { node := .leaf type },
      .leaf { node := .leaf name, symbol := some table.symbols.size }]]
      (table.declare scope (.ofKeyword type.lexeme) name).2 := by
  refine ⟨?_, ?_, fun hfiled ↦ hfiled.declare hscope hnew _⟩
  · rw [enclosures_declare]
    exact (List.append_nil _).symm
  · rw [declared_declare]
    rfl

/-- A leaf under which the table is only marked. -/
theorem leaf {r : Resolved} (hblock : r.isBlock = false) (hdeclaration : r.isDeclaration = false)
    (h : Remarked table next) : Opened scope table [.leaf r] next := by
  refine .node hblock (Tree.declaration?_eq_none hdeclaration) ⟨?_, ?_, fun hf ↦ hf.remarked h⟩
  · rw [enclosures, h.scopes]
    simp [Forest.enclosed, openedBy, enclosures]
  · rw [h.declared]
    simp [Forest.enclosed, declaredBy]

section Trails

variable {root u : Tree Resolved} {trail : Trail Resolved}

/-- The scope of a block is within those of the blocks on the trail to it. -/
theorem ancestors_block (h : Opened scope table [root] next) (hu : root.Occurs trail u)
    (hblock : u.label.isBlock = true) :
    next.ancestors (table.scopes.size + trail.blocks) =
      trail.scopes table.scopes.size ++ scope :: table.ancestors scope := by
  obtain ⟨front, back, henclosed, hfront⟩ :=
    hu.enclosed (scope :: table.ancestors scope) table.scopes.size
  have hlength : (openedBy front).length = trail.blocks := by
    rw [length_openedBy, hfront, Trail.blocks]
  obtain ⟨r, ts⟩ := u
  replace hblock : r.isBlock = true := hblock
  rw [ScopeTable.ancestors_eq, h.scopes, Forest.enclosed_singleton, henclosed, openedBy_append,
    openedBy_block hblock, ← length_enclosures, ← hlength]
  simp

/-- A declaration has a symbol in the innermost of the scopes around it. -/
theorem mem_declared {d : Declaration} (h : Opened scope table [root] next)
    (hd : root.Occurs trail d.tree) :
    (d.entry ((trail.scopes table.scopes.size ++ scope :: table.ancestors scope).headD 0),
      d.symbol) ∈ next.declared := by
  obtain ⟨front, back, henclosed, -⟩ :=
    hd.enclosed (scope :: table.ancestors scope) table.scopes.size
  rw [h.symbols, Forest.enclosed_singleton, henclosed]
  apply List.mem_append_right
  refine List.mem_filterMap.mpr ⟨_, List.mem_append_right _ (List.mem_cons_self ..), ?_⟩
  rfl

end Trails

end Opened

section Steps

variable {scope : ScopeId} {parent : Option Production} {table next : ScopeTable}
  {trees : Forest Resolved} {children : Forest Node}

private theorem opened_declaration (hscope : scope < table.scopes.size)
    (h : Gives (lower scope parent (.node (.branch .varDecl) children)) table trees next) :
    Opened scope table trees next := by
  rcases gives_declaration h with ⟨type, name, _, _, hnew, rfl, rfl⟩ | ⟨_, rfl, rfl⟩
  · exact .declare hscope hnew
  · exact (Opened.nil scope next).node rfl rfl

private theorem opened_identifier {isTarget : Bool} {name : Token} {t : Tree Resolved}
    (h : Gives (identifier scope isTarget name) table t next) : Opened scope table [t] next := by
  obtain ⟨symbol, _, rfl, rfl⟩ := gives_identifier h
  apply Opened.leaf rfl rfl
  cases isTarget with
  | true => exact remarked_markInitialized _ symbol
  | false => exact remarked_markUsed _ symbol

private theorem opened_name
    (h : Gives (lower scope parent (.node (.branch .name) children)) table trees next) :
    Opened scope table trees next := by
  rw [lower] at h
  split at h
  · obtain ⟨t, mid, hidentifier, hpure⟩ := Gives.bind h
    obtain ⟨rfl, rfl⟩ := hpure.pure
    exact opened_identifier hidentifier
  · obtain ⟨rfl, rfl⟩ := Gives.pure h
    exact .nil scope next

private theorem opened_terminal {p : Production} (hp : p = .digit ∨ p = .boolVal ∨ p = .typeName)
    (h : Gives (lower scope parent (.node (.branch p) children)) table trees next) :
    Opened scope table trees next := by
  obtain ⟨rfl, rfl⟩ := gives_terminal hp h
  cases Tree.terminal? (.node (.branch p) children) with
  | none => exact .nil scope next
  | some token => exact .leaf rfl rfl (.refl next)

/-- An operator above its operands opens nothing itself. -/
theorem opened_operation {p : Production} (hp : p = .intExpr ∨ p = .boolExpr)
    (hall : ∀ {p : Production} {next : ScopeTable} {trees : Forest Resolved},
      Gives (lowerAll scope p children) table trees next → Opened scope table trees next)
    (h : Gives (lower scope parent (.node (.branch p) children)) table trees next) :
    Opened scope table trees next := by
  cases hop : operator? children with
  | none => exact hall (gives_value hp hop h)
  | some operator =>
    obtain ⟨operands, hoperands, rfl, -⟩ := gives_operation hp hop h
    exact (hall hoperands).node rfl (Tree.declaration?_eq_none rfl)

end Steps

mutual

/-- Lowering a tree opens the scopes of its blocks and declares the symbols of its declarations. -/
theorem opened_lower : ∀ (t : Tree Node) {scope : ScopeId} {parent : Option Production}
    {table next : ScopeTable} {trees : Forest Resolved}, scope < table.scopes.size →
      Gives (lower scope parent t) table trees next → Opened scope table trees next
  | .node (.leaf _) _, scope, parent, table, next, trees, _, h => by
    rw [lower_leaf] at h
    obtain ⟨rfl, rfl⟩ := h.pure
    exact .nil scope next
  | .node (.literal _ _) _, scope, parent, table, next, trees, _, h => by
    rw [lower] at h
    obtain ⟨rfl, rfl⟩ := h.pure
    exact .nil scope next
  | .node (.branch p) children, scope, parent, table, next, trees, hscope, h => by
    cases p with
    | block =>
      obtain ⟨parts, hall, rfl⟩ := gives_block h
      exact .block rfl rfl (opened_lowerAll children (by simp [ScopeTable.adopt]) hall)
    | varDecl => exact opened_declaration hscope h
    | assignmentStatement =>
      obtain ⟨parts, hall, rfl, -⟩ := gives_checked (.inl rfl) h
      exact (opened_lowerAll children hscope hall).node rfl (Tree.declaration?_eq_none rfl)
    | printStatement =>
      obtain ⟨parts, hall, rfl, -⟩ := gives_checked (.inr rfl) h
      exact (opened_lowerAll children hscope hall).node rfl (Tree.declaration?_eq_none rfl)
    | ifStatement =>
      obtain ⟨parts, hall, rfl⟩ := gives_guarded (.inl rfl) h
      exact (opened_lowerAll children hscope hall).node rfl (Tree.declaration?_eq_none rfl)
    | whileStatement =>
      obtain ⟨parts, hall, rfl⟩ := gives_guarded (.inr rfl) h
      exact (opened_lowerAll children hscope hall).node rfl (Tree.declaration?_eq_none rfl)
    | stringExpr =>
      obtain ⟨rfl, _, rfl⟩ := gives_string h
      exact .leaf rfl rfl (.refl next)
    | intExpr => exact opened_operation (.inl rfl) (opened_lowerAll children hscope) h
    | boolExpr => exact opened_operation (.inr rfl) (opened_lowerAll children hscope) h
    | name => exact opened_name h
    | digit => exact opened_terminal (.inl rfl) h
    | boolVal => exact opened_terminal (.inr (.inl rfl)) h
    | typeName => exact opened_terminal (.inr (.inr rfl)) h
    | program | statementList | statement | expr | charList | boolOp | intOp =>
      exact opened_lowerAll children hscope (gives_through (by simp) h)

private theorem opened_lowerAll : ∀ (ts : Forest Node) {scope : ScopeId} {p : Production}
    {table next : ScopeTable} {trees : Forest Resolved}, scope < table.scopes.size →
      Gives (lowerAll scope p ts) table trees next → Opened scope table trees next
  | [], scope, p, table, next, trees, _, h => by
    obtain ⟨rfl, rfl⟩ := gives_lowerAll_nil h
    exact .nil scope next
  | t :: ts, scope, p, table, next, trees, hscope, h => by
    obtain ⟨first, mid, others, hfirst, hothers, rfl⟩ := gives_lowerAll_cons h
    have hopened := opened_lower t hscope hfirst
    have hmid : scope < mid.scopes.size :=
      hopened.size_eq ▸ Nat.lt_of_lt_of_le hscope (Nat.le_add_right _ _)
    exact hopened.append hscope (opened_lowerAll ts hmid hothers)

end

end Analysis

/-- An analysis opens scopes and declares symbols within the outermost scope. -/
theorem analyze_opened {program : Forest Node} {a : Analysis}
    (h : (analyze program).result = .ok a) : Analysis.Opened 0 .start a.tree a.table := by
  obtain ⟨root, _, _, hgives⟩ := analyze_gives h
  exact Analysis.opened_lower root (by decide) hgives

end OnePage
