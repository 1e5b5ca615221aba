import OnePage.Proofs.Resolution
import OnePage.Proofs.Tallying

/-!
# How symbols are used

A symbol is assigned to if it is what an assignment starts with, and it is used if an identifier
stands for it anywhere else but in its declaration. Lowering a tree marks the symbols that the
resolved trees assign to and those that they use, and no others. This holds of every tree of nodes
whose assignments start with their only name, as those that are derived in the grammar do.
-/

namespace OnePage

/-- The label is that of an assignment. -/
def Resolved.isAssignment (r : Resolved) : Bool := r.node == .branch .assignmentStatement

/-- The end of a trail is neither in a declaration nor what an assignment starts with. -/
def Trail.IsValue (trail : Trail Resolved) : Prop :=
  ∀ level ∈ trail.getLast?,
    level.1.isDeclaration = false ∧ (level.1.isAssignment = true → level.2 ≠ [])

/-- An assignment in the tree has as its first child a leaf that stands for the symbol. -/
def Tree.Assigns (t : Tree Resolved) (symbol : SymbolId) : Prop :=
  ∃ u ∈ t.subtrees, u.label.isAssignment = true ∧
    ∃ target rest, u.children = .leaf target :: rest ∧ target.symbol = some symbol

/-- An identifier in the tree that is neither declared nor assigned to stands for the symbol. -/
def Tree.Uses (t : Tree Resolved) (symbol : SymbolId) : Prop :=
  ∃ trail u, t.Occurs trail u ∧ u.identifier?.isSome = true ∧ u.label.symbol = some symbol ∧
    trail.IsValue

/-! ### Assignments and uses in a tree -/

section Trees

variable {r target : Resolved} {ts : Forest Resolved} {symbol : SymbolId}

private theorem Trail.isValue_cons {left : Forest Resolved} {trail : Trail Resolved}
    (hdeclaration : r.isDeclaration = false) (hassignment : r.isAssignment = true → left ≠ []) :
    Trail.IsValue ((r, left) :: trail) ↔ trail.IsValue := by
  cases trail with
  | nil => simpa [Trail.IsValue] using ⟨hdeclaration, hassignment⟩
  | cons level trail => simp [Trail.IsValue, List.getLast?_cons_cons]

namespace Tree

/-- What is assigned to in a tree is assigned to by its root or in its children. -/
theorem assigns_node_iff : (node r ts).Assigns symbol ↔
    (r.isAssignment = true ∧ ∃ target rest, ts = leaf target :: rest ∧
      target.symbol = some symbol) ∨ ∃ t ∈ ts, t.Assigns symbol := by
  constructor
  · rintro ⟨u, hu, hassigns⟩
    rcases List.mem_cons.mp hu with rfl | hu
    · exact .inl hassigns
    · obtain ⟨t, ht, hu⟩ := Forest.mem_subtrees.mp hu
      exact .inr ⟨t, ht, u, hu, hassigns⟩
  · rintro (hassigns | ⟨t, ht, u, hu, hassigns⟩)
    · exact ⟨_, List.mem_cons_self .., hassigns⟩
    · exact ⟨u, List.mem_cons_of_mem _ (Forest.mem_subtrees.mpr ⟨t, ht, hu⟩), hassigns⟩

private theorem assigns_other (h : r.isAssignment = false) :
    (node r ts).Assigns symbol ↔ ∃ t ∈ ts, t.Assigns symbol := by
  rw [assigns_node_iff, h]
  simp

private theorem not_assigns_leaf (h : r.isAssignment = false) : ¬(leaf r).Assigns symbol := by
  rw [leaf, assigns_other h]
  simp

private theorem assigns_target (h : r.isAssignment = true) (htarget : target.isAssignment = false) :
    (node r (leaf target :: ts)).Assigns symbol ↔
      target.symbol = some symbol ∨ ∃ t ∈ ts, t.Assigns symbol := by
  rw [assigns_node_iff]
  constructor
  · rintro (⟨_, other, rest, hts, hsymbol⟩ | ⟨t, ht, hassigns⟩)
    · cases hts
      exact .inl hsymbol
    · rcases List.mem_cons.mp ht with rfl | ht
      · exact absurd hassigns (not_assigns_leaf htarget)
      · exact .inr ⟨t, ht, hassigns⟩
  · rintro (hsymbol | ⟨t, ht, hassigns⟩)
    · exact .inl ⟨h, target, ts, rfl, hsymbol⟩
    · exact .inr ⟨t, List.mem_cons_of_mem _ ht, hassigns⟩

private theorem uses_leaf : (leaf r).Uses symbol ↔
    (leaf r).identifier?.isSome = true ∧ r.symbol = some symbol := by
  constructor
  · rintro ⟨trail, u, hu, hidentifier, hsymbol, _⟩
    obtain ⟨_, rfl⟩ := occurs_leaf_iff.mp hu
    exact ⟨hidentifier, hsymbol⟩
  · rintro ⟨hidentifier, hsymbol⟩
    exact ⟨[], _, .here, hidentifier, hsymbol, nofun⟩

/-- What a child uses is used by the tree if the child is a value there. -/
theorem uses_of_child {left right : Forest Resolved} {child : Tree Resolved}
    (hdeclaration : r.isDeclaration = false) (hassignment : r.isAssignment = true → left ≠ [])
    (h : child.Uses symbol) : (node r (left ++ child :: right)).Uses symbol := by
  obtain ⟨trail, u, hu, hidentifier, hsymbol, hvalue⟩ := h
  exact ⟨_, u, .inside hu, hidentifier, hsymbol,
    (Trail.isValue_cons hdeclaration hassignment).mpr hvalue⟩

private theorem uses_other (hdeclaration : r.isDeclaration = false)
    (hassignment : r.isAssignment = false)
    (hsymbol : r.symbol = none) : (node r ts).Uses symbol ↔ ∃ t ∈ ts, t.Uses symbol := by
  have hfirst : ∀ left : Forest Resolved, r.isAssignment = true → left ≠ [] := by
    simp [hassignment]
  constructor
  · rintro ⟨trail, u, hu, hidentifier, hu', hvalue⟩
    rcases occurs_node_iff.mp hu with ⟨_, rfl⟩ | ⟨left, child, right, rest, rfl, rfl, hchild⟩
    · rw [label, hsymbol] at hu'
      cases hu'
    · exact ⟨child, by simp, rest, u, hchild, hidentifier, hu',
        (Trail.isValue_cons hdeclaration (hfirst left)).mp hvalue⟩
  · rintro ⟨t, ht, huses⟩
    obtain ⟨left, right, rfl⟩ := List.append_of_mem ht
    exact uses_of_child hdeclaration (hfirst left) huses

private theorem uses_target (h : r.isAssignment = true) (hdeclaration : r.isDeclaration = false)
    (hsymbol : r.symbol = none) :
    (node r (leaf target :: ts)).Uses symbol ↔ ∃ t ∈ ts, t.Uses symbol := by
  constructor
  · rintro ⟨trail, u, hu, hidentifier, hu', hvalue⟩
    rcases occurs_node_iff.mp hu with ⟨_, rfl⟩ | ⟨left, child, right, rest, hts, rfl, hchild⟩
    · rw [label, hsymbol] at hu'
      cases hu'
    · cases left with
      | nil =>
        -- The first child is a leaf, so the trail ends at the target.
        obtain ⟨rfl, rfl⟩ := List.cons.inj hts
        obtain ⟨rfl, rfl⟩ := occurs_leaf_iff.mp hchild
        exact absurd rfl ((hvalue _ rfl).2 h)
      | cons first left =>
        obtain ⟨rfl, rfl⟩ := List.cons.inj hts
        exact ⟨child, by simp, rest, u, hchild, hidentifier, hu',
          (Trail.isValue_cons hdeclaration fun _ ↦ List.cons_ne_nil _ _).mp hvalue⟩
  · rintro ⟨t, ht, huses⟩
    obtain ⟨left, right, rfl⟩ := List.append_of_mem ht
    rw [← List.cons_append]
    exact uses_of_child hdeclaration (fun _ ↦ List.cons_ne_nil _ _) huses

/-- A declaration uses nothing. -/
theorem not_uses_declaration (d : Declaration) : ¬d.tree.Uses symbol := by
  rintro ⟨trail, u, hu, hidentifier, _, hvalue⟩
  rcases occurs_pair_iff.mp hu with ⟨_, rfl⟩ | ⟨rest, rfl, hrest⟩ | ⟨rest, rfl, hrest⟩
  · cases hidentifier
  · obtain ⟨rfl, _⟩ := occurs_leaf_iff.mp hrest
    cases (hvalue _ rfl).1
  · obtain ⟨rfl, _⟩ := occurs_leaf_iff.mp hrest
    cases (hvalue _ rfl).1

private theorem not_assigns_declaration (d : Declaration) : ¬d.tree.Assigns symbol := by
  intro h
  obtain ⟨t, ht, h⟩ := (assigns_other rfl).mp h
  simp only [List.mem_cons, List.not_mem_nil, or_false] at ht
  rcases ht with rfl | rfl
  · exact not_assigns_leaf rfl h
  · exact not_assigns_leaf rfl h

end Tree

end Trees

/-! ### Marks in a table -/

namespace ScopeTable

/-- Whether the entry of a symbol has a mark. -/
def marked (flag : Symbol → Bool) (table : ScopeTable) (symbol : SymbolId) : Bool :=
  table.symbols[symbol]?.any flag

variable {table : ScopeTable} {flag : Symbol → Bool} {mark : Symbol → Symbol}

/-- A symbol with an entry is marked as the entry is. -/
theorem marked_of_getElem? {symbol : SymbolId} {entry : Symbol}
    (h : table.symbols[symbol]? = some entry) : table.marked flag symbol = flag entry := by
  rw [marked, h]
  rfl

/-- A symbol that has just been declared has no mark. -/
theorem marked_declare {scope : ScopeId} {type : VarType} {token : Token}
    (h : flag { name := token.lexeme, type, token, scope } = false) (symbol : SymbolId) :
    (table.declare scope type token).2.marked flag symbol = table.marked flag symbol := by
  rw [marked, marked, ScopeTable.declare, Array.getElem?_push]
  split
  · next heq =>
    rw [heq, Array.getElem?_size]
    exact h
  · rfl

/-- Setting a mark leaves the other mark as it is. -/
theorem marked_modify_other (h : ∀ entry, flag (mark entry) = flag entry)
    (symbol other : SymbolId) : marked flag { table with
      symbols := table.symbols.modify symbol mark } other = table.marked flag other := by
  rw [marked, marked, Array.getElem?_modify]
  split
  · cases table.symbols[other]? with
    | none => rfl
    | some entry => exact h entry
  · rfl

private theorem marked_modify {symbol : SymbolId} (h : ∀ entry, flag (mark entry) = true)
    (hsymbol : symbol < table.symbols.size) (other : SymbolId) : marked flag { table with
      symbols := table.symbols.modify symbol mark } other = true ↔
        table.marked flag other = true ∨ symbol = other := by
  rw [marked, marked, Array.getElem?_modify]
  by_cases heq : symbol = other
  · rw [if_pos heq, ← heq, Array.getElem?_eq_getElem hsymbol]
    simp [h]
  · rw [if_neg heq]
    simp [heq]

private theorem initialized_markUsed (table : ScopeTable) (symbol other : SymbolId) :
    (table.markUsed symbol).marked Symbol.initialized other =
      table.marked Symbol.initialized other := by
  apply marked_modify_other
  intro entry
  rfl

private theorem used_markInitialized (table : ScopeTable) (symbol other : SymbolId) :
    (table.markInitialized symbol).marked Symbol.used other = table.marked Symbol.used other := by
  apply marked_modify_other
  intro entry
  rfl

/-- What a name is found to stand for is a symbol of the table. -/
theorem Filed.lookup_lt (h : Filed table) {scope : ScopeId} {name : String} {symbol : SymbolId}
    (hlookup : table.lookup? scope name = some symbol) : symbol < table.symbols.size := by
  obtain ⟨inner, _, hlocal⟩ := List.exists_of_findSome?_eq_some hlookup
  obtain ⟨entry, hentry, _⟩ := (h inner name symbol).mp hlocal
  exact (Array.getElem?_eq_some_iff.mp hentry).1

end ScopeTable

namespace Analysis

open ScopeTable

/-- Lowering has marked what the resolved trees assign to and what they use. -/
structure Marked (table : ScopeTable) (trees : Forest Resolved) (next : ScopeTable) : Prop where
  initialized : ∀ symbol, next.marked Symbol.initialized symbol = true ↔
    table.marked Symbol.initialized symbol = true ∨ ∃ t ∈ trees, t.Assigns symbol
  used : ∀ symbol, next.marked Symbol.used symbol = true ↔
    table.marked Symbol.used symbol = true ∨ ∃ t ∈ trees, t.Uses symbol
  tallied : Tallied table → Tallied next

namespace Marked

variable {table mid next : ScopeTable} {xs ys trees : Forest Resolved} {symbol : SymbolId}

private theorem nil (table : ScopeTable) : Marked table [] table :=
  ⟨fun _ ↦ by simp, fun _ ↦ by simp, id⟩

private theorem append (h : Marked table xs mid) (k : Marked mid ys next) :
    Marked table (xs ++ ys) next where
  initialized symbol := by
    rw [k.initialized, h.initialized]
    simp only [List.mem_append, or_and_right, exists_or, or_assoc]
  used symbol := by
    rw [k.used, h.used]
    simp only [List.mem_append, or_and_right, exists_or, or_assoc]
  tallied := k.tallied ∘ h.tallied

/-- A node that is neither a declaration nor an assignment marks what its children mark. -/
theorem node {r : Resolved} (hdeclaration : r.isDeclaration = false)
    (hassignment : r.isAssignment = false) (hsymbol : r.symbol = none)
    (h : Marked table trees next) : Marked table [.node r trees] next where
  initialized symbol := by
    rw [h.initialized]
    simp [Tree.assigns_other hassignment]
  used symbol := by
    rw [h.used]
    simp [Tree.uses_other hdeclaration hassignment hsymbol]
  tallied := h.tallied

/-- A leaf that stands for no symbol marks nothing. -/
theorem leaf {r : Resolved} (hassignment : r.isAssignment = false) (hsymbol : r.symbol = none) :
    Marked table [.leaf r] table where
  initialized symbol := by
    simp only [List.mem_singleton, exists_eq_left]
    rw [iff_false_intro (Tree.not_assigns_leaf hassignment), or_false]
  used symbol := by
    simp only [List.mem_singleton, exists_eq_left]
    rw [Tree.uses_leaf, hsymbol]
    simp
  tallied := id

/-- Opening a scope marks nothing. -/
theorem adopt {scope : ScopeId} (h : Marked (table.adopt scope).2 trees next) :
    Marked table trees next :=
  ⟨h.initialized, h.used, fun htallied ↦ h.tallied (htallied.adopt scope)⟩

private theorem declare {scope : ScopeId} {type name : Token} (hscope : scope < table.scopes.size)
    (hnew : table.lookupLocal? scope name.lexeme = none) :
    Marked table [(Declaration.mk type name table.symbols.size).tree]
      (table.declare scope (.ofKeyword type.lexeme) name).2 where
  initialized symbol := by
    rw [marked_declare rfl]
    simp [Tree.not_assigns_declaration]
  used symbol := by
    rw [marked_declare rfl]
    simp [Tree.not_uses_declaration]
  tallied htallied := htallied.declare hscope hnew _

/-- An identifier that is a value is used. -/
theorem value {name : Token} (hkind : name.kind = .identifier)
    (hsymbol : symbol < table.symbols.size) :
    Marked table [.leaf { node := .leaf name, symbol := some symbol }]
      (table.markUsed symbol) where
  initialized other := by
    simp only [initialized_markUsed, List.mem_singleton, exists_eq_left]
    rw [iff_false_intro (Tree.not_assigns_leaf rfl), or_false]
  used other := by
    have hidentifier : (Tree.leaf { node := .leaf name, symbol := some symbol :
        Resolved }).identifier?.isSome = true := by
      simp [Tree.identifier?, Tree.leaf, Tree.children, Tree.label, Node.token?, hkind]
    simp only [List.mem_singleton, exists_eq_left]
    rw [markUsed, marked_modify (fun _ ↦ rfl) hsymbol, Tree.uses_leaf]
    simp [hidentifier]
  tallied htallied := htallied.remarked (remarked_markUsed table symbol)

/-- An assignment marks its target as initialized, and then what its value marks. -/
theorem assignment {r : Resolved} {name : Token} (hr : r.isAssignment = true)
    (hdeclaration : r.isDeclaration = false) (hnone : r.symbol = none)
    (hsymbol : symbol < table.symbols.size)
    (h : Marked (table.markInitialized symbol) trees next) :
    Marked table [.node r (.leaf { node := .leaf name, symbol := some symbol } :: trees)]
      next where
  initialized other := by
    simp only [List.mem_singleton, exists_eq_left]
    rw [h.initialized, markInitialized, marked_modify (fun _ ↦ rfl) hsymbol,
      Tree.assigns_target hr rfl, or_assoc, Option.some_inj]
  used other := by
    simp only [List.mem_singleton, exists_eq_left]
    rw [h.used, used_markInitialized, Tree.uses_target hr hdeclaration hnone]
  tallied htallied := h.tallied (htallied.remarked (remarked_markInitialized table symbol))

end Marked

/-! ### Lowering marks what is assigned to and used -/

/-- A name is an identifier, and an assignment starts with a name, the only one right below it. -/
structure Aims (u : Tree Node) : Prop where
  name : u.label = .branch .name → ∃ token, u.terminal? = some token ∧ token.kind = .identifier
  target : u.label = .branch .assignmentStatement → ∃ first rest, u.children = first :: rest ∧
    first.label = .branch .name ∧ ∀ t ∈ rest, t.label ≠ .branch .name

section Steps

variable {scope : ScopeId} {parent : Option Production} {table next : ScopeTable}
  {trees : Forest Resolved} {children : Forest Node}

/-- A name is lowered to its identifier. -/
theorem gives_named (haims : Aims (.node (.branch .name) children))
    (h : Gives (lower scope parent (.node (.branch .name) children)) table trees next) :
    ∃ token t, token.kind = .identifier ∧ trees = [t] ∧
      Gives (identifier scope (parent == some .assignmentStatement) token) table t next := by
  obtain ⟨token, hterminal, hkind⟩ := haims.name rfl
  rw [lower] at h
  simp only [hterminal] at h
  obtain ⟨t, mid, hidentifier, hpure⟩ := Gives.bind h
  obtain ⟨rfl, rfl⟩ := hpure.pure
  exact ⟨token, t, hkind, rfl, hidentifier⟩

private theorem marked_name (hfiled : Filed table) (haims : Aims (.node (.branch .name) children))
    (hparent : parent ≠ some .assignmentStatement)
    (h : Gives (lower scope parent (.node (.branch .name) children)) table trees next) :
    Marked table trees next := by
  obtain ⟨token, t, hkind, rfl, hidentifier⟩ := gives_named haims h
  obtain ⟨symbol, hlookup, rfl, rfl⟩ := gives_identifier hidentifier
  rw [beq_false_of_ne hparent]
  exact .value hkind (hfiled.lookup_lt hlookup)

/-- The name that an assignment starts with is lowered to a leaf, whose symbol is marked as
initialized. -/
theorem gives_target {u : Tree Node} (hfiled : Filed table) (hname : u.label = .branch .name)
    (haims : ∀ v ∈ u.subtrees, Aims v)
    (h : Gives (lower scope (some .assignmentStatement) u) table trees next) :
    ∃ token symbol, trees = [.leaf { node := .leaf token, symbol := some symbol }] ∧
      next = table.markInitialized symbol ∧ symbol < table.symbols.size := by
  cases u with
  | node label children =>
    obtain rfl : label = .branch .name := hname
    obtain ⟨token, t, _, rfl, hidentifier⟩ := gives_named (Tree.forall_mem_subtrees.mp haims).1 h
    obtain ⟨symbol, hlookup, rfl, rfl⟩ := gives_identifier hidentifier
    exact ⟨token, symbol, rfl, rfl, hfiled.lookup_lt hlookup⟩

private theorem marked_declaration (hscope : scope < table.scopes.size)
    (h : Gives (lower scope parent (.node (.branch .varDecl) children)) table trees next) :
    Marked table trees next := by
  rcases gives_declaration h with ⟨type, name, _, _, hnew, rfl, rfl⟩ | ⟨_, rfl, rfl⟩
  · exact .declare hscope hnew
  · exact .leaf rfl rfl

private theorem marked_terminal {p : Production} (hp : p = .digit ∨ p = .boolVal ∨ p = .typeName)
    (h : Gives (lower scope parent (.node (.branch p) children)) table trees next) :
    Marked table trees next := by
  obtain ⟨rfl, rfl⟩ := gives_terminal hp h
  cases Tree.terminal? (.node (.branch p) children) with
  | none => exact .nil next
  | some token => exact .leaf rfl rfl

/-- An operator above its operands marks what they mark. -/
theorem marked_operation {p : Production} (hp : p = .intExpr ∨ p = .boolExpr)
    (hall : ∀ {trees : Forest Resolved}, Gives (lowerAll scope p children) table trees next →
      Marked table trees next)
    (h : Gives (lower scope parent (.node (.branch p) children)) table trees next) :
    Marked table trees next := by
  cases hop : operator? children with
  | none => exact hall (gives_value hp hop h)
  | some operator =>
    obtain ⟨operands, hoperands, rfl, -⟩ := gives_operation hp hop h
    exact (hall hoperands).node rfl rfl rfl

end Steps

/-- All trees in a forest aim, and none of its trees is a name if it stands below an assignment. -/
structure AimsBelow (parent : Option Production) (ts : Forest Node) : Prop where
  aims : ∀ t ∈ ts, ∀ u ∈ t.subtrees, Aims u
  names : parent = some .assignmentStatement → ∀ t ∈ ts, t.label ≠ .branch .name

private theorem AimsBelow.uncons {parent : Option Production} {t : Tree Node} {ts : Forest Node}
    (h : AimsBelow parent (t :: ts)) : AimsBelow parent [t] ∧ AimsBelow parent ts := by
  obtain ⟨haims, hnames⟩ := h
  simp only [List.forall_mem_cons] at haims hnames
  refine ⟨⟨List.forall_mem_singleton.mpr haims.1, fun hp ↦ ?_⟩, haims.2, fun hp ↦ (hnames hp).2⟩
  exact List.forall_mem_singleton.mpr (hnames hp).1

mutual

/-- Lowering a tree marks what it assigns to and what it uses. -/
theorem marked_lower : ∀ (t : Tree Node) {scope : ScopeId} {parent : Option Production}
    {table next : ScopeTable} {trees : Forest Resolved}, scope < table.scopes.size →
      Filed table → AimsBelow parent [t] → Gives (lower scope parent t) table trees next →
        Marked table trees next
  | .node (.leaf _) _, scope, parent, table, next, trees, _, _, _, h => by
    rw [lower_leaf] at h
    obtain ⟨rfl, rfl⟩ := h.pure
    exact .nil next
  | .node (.literal _ _) _, scope, parent, table, next, trees, _, _, _, h => by
    rw [lower] at h
    obtain ⟨rfl, rfl⟩ := h.pure
    exact .nil next
  | .node (.branch p) children, scope, parent, table, next, trees, hscope, hfiled, ha, h => by
    obtain ⟨haims, hbelow⟩ := Tree.forall_mem_subtrees.mp (ha.aims _ (List.mem_cons_self ..))
    -- Only below an assignment a name may be a target.
    have hall : p ≠ .assignmentStatement → AimsBelow (some p) children := fun hp ↦
      ⟨hbelow, fun hparent ↦ absurd (Option.some.inj hparent) hp⟩
    cases p with
    | block =>
      obtain ⟨parts, hparts, rfl⟩ := gives_block h
      have hmarked := marked_lowerAll children (by simp [ScopeTable.adopt]) (hfiled.adopt scope)
        (hall (by decide)) hparts
      exact .adopt (hmarked.node rfl rfl rfl)
    | varDecl => exact marked_declaration hscope h
    | assignmentStatement =>
      obtain ⟨parts, hparts, rfl, -⟩ := gives_checked (.inl rfl) h
      obtain ⟨first, rest, hchildren, hfirst, hothers⟩ := haims.target rfl
      cases children with
      | nil => cases hchildren
      | cons target others =>
        obtain ⟨rfl, rfl⟩ := List.cons.inj hchildren
        obtain ⟨_, mid, values, htarget, hvalues, rfl⟩ := gives_lowerAll_cons hparts
        obtain ⟨token, symbol, rfl, rfl, hsymbol⟩ :=
          gives_target hfiled hfirst (hbelow _ (List.mem_cons_self ..)) htarget
        -- The target is marked first, so the value is lowered in the table with that mark.
        have hmarked := marked_lowerAll others (by exact hscope)
          (hfiled.remarked (remarked_markInitialized table symbol))
          ⟨fun t ht ↦ hbelow t (List.mem_cons_of_mem _ ht), fun _ ↦ hothers⟩ hvalues
        exact .assignment rfl rfl rfl hsymbol hmarked
    | printStatement =>
      obtain ⟨parts, hparts, rfl, -⟩ := gives_checked (.inr rfl) h
      exact (marked_lowerAll children hscope hfiled (hall (by decide)) hparts).node rfl rfl rfl
    | ifStatement =>
      obtain ⟨parts, hparts, rfl⟩ := gives_guarded (.inl rfl) h
      exact (marked_lowerAll children hscope hfiled (hall (by decide)) hparts).node rfl rfl rfl
    | whileStatement =>
      obtain ⟨parts, hparts, rfl⟩ := gives_guarded (.inr rfl) h
      exact (marked_lowerAll children hscope hfiled (hall (by decide)) hparts).node rfl rfl rfl
    | stringExpr =>
      obtain ⟨rfl, _, rfl⟩ := gives_string h
      exact .leaf rfl rfl
    | intExpr =>
      exact marked_operation (.inl rfl)
        (marked_lowerAll children hscope hfiled (hall (by decide))) h
    | boolExpr =>
      exact marked_operation (.inr rfl)
        (marked_lowerAll children hscope hfiled (hall (by decide))) h
    | name =>
      refine marked_name hfiled haims (fun hparent ↦ ?_) h
      exact ha.names hparent _ (List.mem_cons_self ..) rfl
    | digit => exact marked_terminal (.inl rfl) h
    | boolVal => exact marked_terminal (.inr (.inl rfl)) h
    | typeName => exact marked_terminal (.inr (.inr rfl)) h
    | program | statementList | statement | expr | charList | boolOp | intOp =>
      exact marked_lowerAll children hscope hfiled (hall (by decide)) (gives_through (by simp) h)

private theorem marked_lowerAll : ∀ (ts : Forest Node) {scope : ScopeId} {p : Production}
    {table next : ScopeTable} {trees : Forest Resolved}, scope < table.scopes.size →
      Filed table → AimsBelow (some p) ts → Gives (lowerAll scope p ts) table trees next →
        Marked table trees next
  | [], scope, p, table, next, trees, _, _, _, h => by
    obtain ⟨rfl, rfl⟩ := gives_lowerAll_nil h
    exact .nil next
  | t :: ts, scope, p, table, next, trees, hscope, hfiled, ha, h => by
    obtain ⟨first, mid, others, hfirst, hothers, rfl⟩ := gives_lowerAll_cons h
    have hopened := opened_lower t hscope hfirst
    have hmid : scope < mid.scopes.size :=
      hopened.size_eq ▸ Nat.lt_of_lt_of_le hscope (Nat.le_add_right _ _)
    obtain ⟨ht, hts⟩ := ha.uncons
    exact (marked_lower t hscope hfiled ht hfirst).append
      (marked_lowerAll ts hmid (hopened.filed hfiled) hts hothers)

end

end Analysis

/-! ### Derived programs -/

namespace DerivationForest

open Analysis

variable {items : List Item} {trees : Forest Node} {tokens : List Token}

private theorem aims_of_rule {p : Production} {rhs : List Item} {children : Forest Node}
    (rule : Rule p rhs)
    (h : DerivationForest rhs children tokens) : Aims (.node (.branch p) children) where
  name hp := by
    obtain rfl : p = .name := Node.branch.inj hp
    cases rule
    obtain ⟨t, _, _, hkind, rfl, _⟩ := h.kind_cons
    exact ⟨t, rfl, hkind⟩
  target hp := by
    obtain rfl : p = .assignmentStatement := Node.branch.inj hp
    cases rule
    obtain ⟨_, _, _, rfl, hassign⟩ := h.part_cons nofun
    obtain ⟨_, _, _, _, rfl, hvalue⟩ := hassign.kind_cons
    obtain ⟨_, _, _, rfl, hnothing⟩ := hvalue.part_cons nofun
    cases hnothing
    refine ⟨_, _, rfl, rfl, ?_⟩
    simp [Tree.leaf, Tree.label]

/-- In derived trees names are identifiers, and assignments start with their only name. -/
theorem aims (h : DerivationForest items trees tokens) :
    ∀ t ∈ trees, ∀ u ∈ t.subtrees, Aims u := by
  induction h with
  | nil => exact List.forall_mem_nil _
  | token _ ih =>
    exact List.forall_mem_cons.mpr ⟨Tree.forall_mem_subtrees_leaf ⟨nofun, nofun⟩, ih⟩
  | branch rule _ h _ ihc ih =>
    exact List.forall_mem_cons.mpr
      ⟨Tree.forall_mem_subtrees.mpr ⟨aims_of_rule rule h, ihc⟩, ih⟩
  | empty _ _ ih => exact ih

end DerivationForest

end OnePage
