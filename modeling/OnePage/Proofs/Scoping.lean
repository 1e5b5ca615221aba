import OnePage.Proofs.Typing

/-!
# Names in scope

What the table of scopes says of the names that can be used in a scope, and how opening a scope,
declaring a variable and leaving a scope change that.
-/

namespace OnePage.ScopeTable

variable {table next : ScopeTable} {scope : ScopeId} {names later : Bindings}

/-! ### What changes to the table do -/

/-- A new scope has no names, and leaves those of the others. -/
theorem names_adopt (table : ScopeTable) (parent scope : ScopeId) :
    (table.adopt parent).2.names scope = table.names scope := by
  simp only [ScopeTable.names, adopt, Array.getElem?_push]
  by_cases h : scope = table.scopes.size
  · rw [if_pos h, h, Array.getElem?_eq_none (Nat.le_refl _)]
  · rw [if_neg h]

/-- Around a new scope are its parent and the scopes around that. -/
theorem ancestors_adopt_self (table : ScopeTable) (parent : ScopeId) :
    (table.adopt parent).2.ancestors table.scopes.size = parent :: table.ancestors parent := by
  simp [ancestors, adopt]

/-- A new scope leaves the scopes around the others as they are. -/
theorem ancestors_adopt_of_ne (table : ScopeTable) (parent : ScopeId)
    (h : scope ≠ table.scopes.size) :
    (table.adopt parent).2.ancestors scope = table.ancestors scope := by
  simp only [ancestors, adopt, Array.getElem?_push, if_neg h]

/-- A declaration adds its name to its scope, for the next symbol. -/
theorem names_declare_self (h : scope < table.scopes.size) (type : VarType) (token : Token) :
    (table.declare scope type token).2.names scope =
      (table.names scope).insert token.lexeme table.symbols.size := by
  simp [ScopeTable.names, declare, Array.getElem?_modify, Array.getElem?_eq_getElem h]

/-- A declaration leaves the names of the other scopes as they are. -/
theorem names_declare_of_ne {other : ScopeId} (h : scope ≠ other) (type : VarType)
    (token : Token) : (table.declare scope type token).2.names other = table.names other := by
  simp [ScopeTable.names, declare, Array.getElem?_modify, h]

/-- A declaration changes nothing about which scope is inside which. -/
theorem ancestors_declare (table : ScopeTable) (scope other : ScopeId) (type : VarType)
    (token : Token) :
    (table.declare scope type token).2.ancestors other = table.ancestors other := by
  simp only [ancestors, declare, Array.getElem?_modify]
  by_cases h : scope = other
  · rw [if_pos h]
    cases table.scopes[other]? <;> rfl
  · rw [if_neg h]

/-- A declaration gives its type to the new symbol and keeps the types of all others. -/
theorem typeOf_declare (table : ScopeTable) (scope : ScopeId) (type : VarType) (token : Token)
    (symbol : SymbolId) : (table.declare scope type token).2.typeOf symbol =
      if symbol = table.symbols.size then type else table.typeOf symbol := by
  simp only [typeOf, declare, Array.getElem?_push]
  by_cases h : symbol = table.symbols.size
  · rw [if_pos h, if_pos h]
  · rw [if_neg h, if_neg h]

private theorem typeOf_modify (symbols : Array Symbol) (scopes : Array Scope)
    (symbol other : SymbolId) (mark : Symbol → Symbol) (h : ∀ s, (mark s).type = s.type) :
    typeOf { scopes, symbols := symbols.modify symbol mark } other =
      typeOf { scopes, symbols } other := by
  simp only [typeOf, Array.getElem?_modify]
  by_cases he : symbol = other
  · rw [if_pos he]
    cases symbols[other]? <;> simp [h]
  · rw [if_neg he]

/-- The same scopes, and symbols of the same types. -/
structure Same (table next : ScopeTable) : Prop where
  scopes : next.scopes = table.scopes
  symbols : next.symbols.size = table.symbols.size
  types : next.typeOf = table.typeOf

/-- A table has the scopes and types of itself. -/
theorem Same.refl (table : ScopeTable) : Same table table := ⟨rfl, rfl, rfl⟩

/-- What stays the same in two steps stays the same in both together. -/
theorem Same.trans {mid : ScopeTable} (h : Same table mid) (k : Same mid next) :
    Same table next :=
  ⟨k.scopes.trans h.scopes, k.symbols.trans h.symbols, k.types.trans h.types⟩

/-- Marking a symbol as used keeps scopes and types. -/
theorem same_markUsed (table : ScopeTable) (symbol : SymbolId) :
    Same table (table.markUsed symbol) :=
  ⟨rfl, by simp [markUsed], funext fun other ↦ typeOf_modify _ _ symbol other _ fun _ ↦ rfl⟩

/-- Marking a symbol as initialized keeps scopes and types. -/
theorem same_markInitialized (table : ScopeTable) (symbol : SymbolId) :
    Same table (table.markInitialized symbol) :=
  ⟨rfl, by simp [markInitialized], funext fun other ↦ typeOf_modify _ _ symbol other _ fun _ ↦ rfl⟩

/-! ### Names in scope -/

/-- The names are those that can be used in the scope, with the symbols they stand for. -/
structure InScope (table : ScopeTable) (scope : ScopeId) (names : Bindings) : Prop where
  scope_lt : scope < table.scopes.size
  ancestors_lt : ∀ s, ∀ a ∈ table.ancestors s, a < table.scopes.size
  lookup : ∀ name, table.lookup? scope name = names.lookup name
  declared : ∀ b ∈ names, b.2 < table.symbols.size
  typed : ∀ symbol < table.symbols.size, table.typeOf symbol ≠ .none

/-- Only the given scope and later ones may have changed. -/
structure ChangesOnly (scope : ScopeId) (table next : ScopeTable) : Prop where
  scopes : table.scopes.size ≤ next.scopes.size
  symbols : table.symbols.size ≤ next.symbols.size
  names : ∀ s < table.scopes.size, s ≠ scope → next.names s = table.names s
  ancestors : ∀ s < table.scopes.size, next.ancestors s = table.ancestors s
  types : ∀ symbol < table.symbols.size, next.typeOf symbol = table.typeOf symbol

/-- Without a change, no scope changes. -/
theorem ChangesOnly.refl (scope : ScopeId) (table : ScopeTable) : ChangesOnly scope table table :=
  ⟨Nat.le_refl _, Nat.le_refl _, fun _ _ _ ↦ rfl, fun _ _ ↦ rfl, fun _ _ ↦ rfl⟩

/-- If two steps change only a scope and later ones, so do both together. -/
theorem ChangesOnly.trans {mid : ScopeTable} (h : ChangesOnly scope table mid)
    (k : ChangesOnly scope mid next) : ChangesOnly scope table next where
  scopes := Nat.le_trans h.scopes k.scopes
  symbols := Nat.le_trans h.symbols k.symbols
  names s hs hne := (k.names s (Nat.lt_of_lt_of_le hs h.scopes) hne).trans (h.names s hs hne)
  ancestors s hs := (k.ancestors s (Nat.lt_of_lt_of_le hs h.scopes)).trans (h.ancestors s hs)
  types s hs := (k.types s (Nat.lt_of_lt_of_le hs h.symbols)).trans (h.types s hs)

/-- Where scopes and types stay the same, no scope changes. -/
theorem Same.changesOnly (h : Same table next) (scope : ScopeId) :
    ChangesOnly scope table next where
  scopes := Nat.le_of_eq (congrArg Array.size h.scopes).symm
  symbols := Nat.le_of_eq h.symbols.symm
  names s _ _ := by simp only [ScopeTable.names, h.scopes]
  ancestors s _ := by simp only [ScopeTable.ancestors, h.scopes]
  types s _ := by rw [h.types]

/-- A name in scope stands for a symbol that is declared. -/
theorem InScope.lookup_lt (h : InScope table scope names) {name : String} {symbol : SymbolId}
    (hl : names.lookup name = some symbol) : symbol < table.symbols.size :=
  h.declared _ (mem_of_lookup hl)

/-- Where the scopes are the same, so are the names in scope. -/
theorem InScope.same (h : InScope table scope names) (k : Same table next) :
    InScope next scope names where
  scope_lt := by
    rw [k.scopes]
    exact h.scope_lt
  ancestors_lt s a ha := by
    simp only [ancestors, k.scopes] at ha ⊢
    exact h.ancestors_lt s a ha
  lookup name := by
    rw [← h.lookup name]
    simp only [lookup?, lookupLocal?, ScopeTable.names, ancestors, k.scopes]
  declared b hb := by
    rw [k.symbols]
    exact h.declared b hb
  typed symbol hs := by
    rw [k.types]
    exact h.typed symbol (by rwa [k.symbols] at hs)

/-- A scope just opened has the names of the one around it. -/
theorem InScope.adopt (h : InScope table scope names) :
    InScope (table.adopt scope).2 table.scopes.size names where
  scope_lt := by simp [ScopeTable.adopt]
  ancestors_lt s a ha := by
    have hsize : (table.adopt scope).2.scopes.size = table.scopes.size + 1 := by
      simp [ScopeTable.adopt]
    rw [hsize]
    by_cases hs : s = table.scopes.size
    · rw [hs, ancestors_adopt_self] at ha
      rcases List.mem_cons.mp ha with rfl | ha
      · exact Nat.lt_succ_of_lt h.scope_lt
      · exact Nat.lt_succ_of_lt (h.ancestors_lt scope a ha)
    · rw [ancestors_adopt_of_ne table scope hs] at ha
      exact Nat.lt_succ_of_lt (h.ancestors_lt s a ha)
  lookup name := by
    have hlocal : ∀ s, (table.adopt scope).2.lookupLocal? s name = table.lookupLocal? s name := by
      intro s
      rw [lookupLocal?, names_adopt, lookupLocal?]
    have hnew : table.lookupLocal? table.scopes.size name = none := by
      simp [lookupLocal?, ScopeTable.names, Names.find?]
    rw [← h.lookup name, lookup?, ancestors_adopt_self]
    simp only [hlocal]
    rw [List.findSome?_cons, hnew]
    rfl
  declared := h.declared
  typed := h.typed

/-- What is done in a scope just opened keeps all scopes there were. -/
theorem ChangesOnly.leave (k : ChangesOnly table.scopes.size (table.adopt scope).2 next)
    (other : ScopeId) : ChangesOnly other table next := by
  have hsize : (table.adopt scope).2.scopes.size = table.scopes.size + 1 := by
    simp [ScopeTable.adopt]
  have hlt : ∀ s, s < table.scopes.size → s < (table.adopt scope).2.scopes.size :=
    fun s hs ↦ hsize ▸ Nat.lt_succ_of_lt hs
  refine ⟨?_, k.symbols, ?_, ?_, k.types⟩
  · exact Nat.le_trans (hsize ▸ Nat.le_succ _) k.scopes
  · intro s hs _
    rw [k.names s (hlt s hs) (Nat.ne_of_lt hs), names_adopt]
  · intro s hs
    rw [k.ancestors s (hlt s hs), ancestors_adopt_of_ne table scope (Nat.ne_of_lt hs)]

/-- Leaving a scope restores the names in scope around it. -/
theorem InScope.leave (h : InScope table scope names)
    (k : ChangesOnly table.scopes.size (table.adopt scope).2 next)
    (inner : InScope next table.scopes.size later) : InScope next scope names where
  scope_lt := Nat.lt_trans h.scope_lt inner.scope_lt
  ancestors_lt := inner.ancestors_lt
  lookup name := by
    have kept := k.leave (table.scopes.size)
    have hnames : ∀ s < table.scopes.size,
        next.lookupLocal? s name = table.lookupLocal? s name := by
      intro s hs
      rw [lookupLocal?, kept.names s hs (Nat.ne_of_lt hs), lookupLocal?]
    have hancestors : next.ancestors scope = table.ancestors scope :=
      kept.ancestors scope h.scope_lt
    -- A look-up visits the scope and those around it, all of which were there before.
    rw [← h.lookup name, lookup?, lookup?, hancestors]
    apply findSome?_congr
    intro s hs
    rcases List.mem_cons.mp hs with rfl | hs
    · exact hnames s h.scope_lt
    · exact hnames s (h.ancestors_lt scope s hs)
  declared b hb := Nat.lt_of_lt_of_le (h.declared b hb) k.symbols
  typed := inner.typed

/-- A name just declared stands for the new symbol; all others stand for what they did. -/
theorem InScope.declare (h : InScope table scope names) {type : VarType} (known : type ≠ .none)
    (token : Token) : InScope (table.declare scope type token).2 scope
      ((token.lexeme, table.symbols.size) :: names) where
  scope_lt := by
    simp only [ScopeTable.declare, Array.size_modify]
    exact h.scope_lt
  ancestors_lt s a ha := by
    rw [ancestors_declare] at ha
    simp only [ScopeTable.declare, Array.size_modify]
    exact h.ancestors_lt s a ha
  lookup name := by
    rw [lookup?, ancestors_declare, List.lookup_cons]
    by_cases hname : name = token.lexeme
    · rw [List.findSome?_cons, lookupLocal?, names_declare_self h.scope_lt, hname,
        Names.find?_insert_self]
      simp
    · have hlocal : ∀ s, (table.declare scope type token).2.lookupLocal? s name =
          table.lookupLocal? s name := by
        intro s
        by_cases hs : scope = s
        · subst hs
          rw [lookupLocal?, names_declare_self h.scope_lt, Names.find?_insert_of_ne _ _ hname,
            lookupLocal?]
        · rw [lookupLocal?, names_declare_of_ne hs, lookupLocal?]
      have hne : (name == token.lexeme) = false := by simpa using hname
      simp only [hlocal, hne]
      exact h.lookup name
  declared b hb := by
    have hsize : (table.declare scope type token).2.symbols.size = table.symbols.size + 1 := by
      simp [ScopeTable.declare]
    rw [hsize]
    rcases List.mem_cons.mp hb with rfl | hb
    · exact Nat.lt_succ_self _
    · exact Nat.lt_succ_of_lt (h.declared b hb)
  typed symbol hs := by
    by_cases hold : symbol < table.symbols.size
    · rw [typeOf_declare, if_neg (Nat.ne_of_lt hold)]
      exact h.typed symbol hold
    · have hnew : symbol = table.symbols.size := by
        simp only [ScopeTable.declare, Array.size_push] at hs
        omega
      rw [hnew, typeOf_declare, if_pos rfl]
      exact known

/-- A declaration changes only its scope. -/
theorem changesOnly_declare (table : ScopeTable) (scope : ScopeId) (type : VarType)
    (token : Token) :
    ChangesOnly scope table (table.declare scope type token).2 where
  scopes := by simp [ScopeTable.declare]
  symbols := by simp [ScopeTable.declare]
  names s _ hne := names_declare_of_ne hne.symm type token
  ancestors s _ := ancestors_declare table scope s type token
  types symbol hs := by rw [typeOf_declare, if_neg (Nat.ne_of_lt hs)]

end OnePage.ScopeTable
