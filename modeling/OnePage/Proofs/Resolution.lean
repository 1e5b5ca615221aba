import OnePage.Proofs.Opening

/-!
# What names stand for

In an analysed program exactly the identifiers stand for symbols. The name of a declaration stands
for a symbol of its own. Any other identifier stands for the symbol of the last declaration of its
name before it, in the innermost block around it that has one before it. The scopes are the blocks
of the program, one inside the other as the blocks are.
-/

namespace OnePage

/-- The token of an identifier that has nothing below it. -/
def Tree.identifier? (t : Tree Resolved) : Option Token :=
  if t.children.isEmpty then t.label.node.token?.filter (·.kind == .identifier) else none

private theorem Tree.identifier?_branch (p : Production) (ts : Forest Resolved) :
    Tree.identifier? (.node { node := .branch p } ts) = none := by
  simp [identifier?, Tree.label, Node.token?]

/-- One of the trees declares the name. -/
def Forest.Declares (ts : Forest Resolved) (name : String) : Prop :=
  ∃ d : Declaration, d.tree ∈ ts ∧ d.name.lexeme = name

/-- At the end of the trail the name stands for the symbol: that of its last declaration in the
innermost block on the trail which declares it to the left of the trail. -/
def Trail.Sees (trail : Trail Resolved) (name : String) (symbol : SymbolId) : Prop :=
  ∃ (outer inner : Trail Resolved) (r : Resolved) (left right : Forest Resolved)
    (d : Declaration), trail = outer ++ (r, left ++ d.tree :: right) :: inner ∧
      r.isBlock = true ∧ d.name.lexeme = name ∧ d.symbol = symbol ∧
      ¬Forest.Declares right name ∧
      ∀ level ∈ inner, level.1.isBlock = true → ¬Forest.Declares level.2 name

/-! ### The names that are declared along a trail -/

/-- The names that trees declare, with their symbols, the last first. -/
def Forest.declares : Forest Resolved → Bindings
  | [] => []
  | t :: ts =>
    Forest.declares ts ++ (t.declaration?.map fun d ↦ (d.name.lexeme, d.symbol)).toList

/-- The names that the blocks on a trail declare to the left of it, innermost first. -/
def Trail.names : Trail Resolved → Bindings
  | [] => []
  | (r, left) :: trail => Trail.names trail ++ if r.isBlock then Forest.declares left else []

private theorem Forest.declares_of_lookup_none {ts : Forest Resolved} {name : String}
    (h : (Forest.declares ts).lookup name = none) : ¬Forest.Declares ts name := by
  induction ts with
  | nil => simp [Forest.Declares]
  | cons t ts ih =>
    rw [Forest.declares, List.lookup_append, Option.or_eq_none_iff] at h
    rintro ⟨d, hd, rfl⟩
    rcases List.mem_cons.mp hd with rfl | hd
    · simp [Tree.declaration?_eq_some.mpr rfl] at h
    · exact ih h.1 ⟨d, hd, rfl⟩

private theorem Forest.declares_of_lookup_some {ts : Forest Resolved} {name : String}
    {symbol : SymbolId} (h : (Forest.declares ts).lookup name = some symbol) :
    ∃ left d right, ts = left ++ Declaration.tree d :: right ∧ d.name.lexeme = name ∧
      d.symbol = symbol ∧ ¬Forest.Declares right name := by
  induction ts with
  | nil => cases h
  | cons t ts ih =>
    rw [Forest.declares, List.lookup_append, Option.or_eq_some_iff] at h
    rcases h with h | ⟨hnone, h⟩
    · obtain ⟨left, d, right, rfl, hname, hsymbol, hright⟩ := ih h
      exact ⟨t :: left, d, right, rfl, hname, hsymbol, hright⟩
    · cases hd : t.declaration? with
      | none => simp [hd] at h
      | some d =>
        obtain rfl := Tree.declaration?_eq_some.mp hd
        simp only [hd, Option.map_some, Option.toList_some, List.lookup_cons] at h
        split at h
        · next hname =>
          cases h
          exact ⟨[], d, ts, rfl, (beq_iff_eq.mp hname).symm, rfl,
            Forest.declares_of_lookup_none hnone⟩
        · cases h

namespace Trail

private theorem declares_of_lookup_none {trail : Trail Resolved} {name : String}
    (h : (Trail.names trail).lookup name = none) :
    ∀ level ∈ trail, level.1.isBlock = true → ¬Forest.Declares level.2 name := by
  induction trail with
  | nil => simp
  | cons level trail ih =>
    rw [Trail.names, List.lookup_append, Option.or_eq_none_iff] at h
    intro other hother hblock
    rcases List.mem_cons.mp hother with rfl | hother
    · rw [if_pos hblock] at h
      exact Forest.declares_of_lookup_none h.2
    · exact ih h.1 other hother hblock

/-- What is found among the names of a trail is what is seen at its end. -/
theorem sees_of_lookup {trail : Trail Resolved} {name : String} {symbol : SymbolId}
    (h : (Trail.names trail).lookup name = some symbol) : Trail.Sees trail name symbol := by
  induction trail with
  | nil => cases h
  | cons level trail ih =>
    obtain ⟨r, left⟩ := level
    rw [Trail.names, List.lookup_append, Option.or_eq_some_iff] at h
    rcases h with h | ⟨hnone, h⟩
    · obtain ⟨outer, inner, s, before, after, d, rfl, hsees⟩ := ih h
      exact ⟨(r, left) :: outer, inner, s, before, after, d, rfl, hsees⟩
    · split at h
      · next hblock =>
        obtain ⟨before, d, after, rfl, hname, hsymbol, hafter⟩ :=
          Forest.declares_of_lookup_some h
        exact ⟨[], trail, r, before, after, d, rfl, hblock, hname, hsymbol, hafter,
          declares_of_lookup_none hnone⟩
      · cases h

end Trail

/-! ### Well-typed programs resolve their names -/

/-- How the tree at the end of a trail stands to symbols, where some names are in scope at the
start of the trail. -/
structure Resolves (names : Bindings) (trail : Trail Resolved) (u : Tree Resolved) : Prop where
  bound : u.label.symbol.isSome = u.identifier?.isSome
  declares : u.label.isDeclaration = true →
    (∃ d : Declaration, u = d.tree ∧ d.name.kind = .identifier) ∧
      ∀ level ∈ trail.getLast?, level.1.isBlock = true
  sees : ∀ token, u.identifier? = some token →
    (∀ level ∈ trail.getLast?, level.1.isDeclaration = false) →
      ∃ symbol, u.label.symbol = some symbol ∧
        (trail.names ++ names).lookup token.lexeme = some symbol

variable {types : SymbolId → VarType} {names later : Bindings} {n last : Nat}
  {t u : Tree Resolved} {ts : Forest Resolved} {trail : Trail Resolved}

namespace Resolves

/-- A tree without a symbol that is no identifier and no declaration. -/
theorem plain (hsymbol : u.label.symbol = none) (hidentifier : u.identifier? = none)
    (hdeclaration : u.label.isDeclaration = false) : Resolves names trail u where
  bound := by rw [hsymbol, hidentifier]; rfl
  declares h := by simp [hdeclaration] at h
  sees token h := by simp [hidentifier] at h

private theorem identifier {m : Mark} {symbol : SymbolId}
    (h : names.lookup m.lexeme = some symbol) :
    Resolves names [] (.leaf { node := .leaf (m.token .identifier), symbol := some symbol }) where
  bound := rfl
  declares h := by cases h
  sees token htoken _ := by
    cases htoken
    exact ⟨symbol, rfl, h⟩

/-- A block adds what it declares to the left. -/
theorem inBlock {r : Resolved} {left : Forest Resolved} (hr : r.isBlock = true)
    (h : Resolves (Forest.declares left ++ names) trail u) :
    Resolves names ((r, left) :: trail) u where
  bound := h.bound
  declares hu := by
    refine ⟨(h.declares hu).1, ?_⟩
    cases trail with
    | nil => simpa using hr
    | cons level trail => simpa using (h.declares hu).2
  sees token htoken hlast := by
    rw [Trail.names, if_pos hr, List.append_assoc]
    refine h.sees token htoken ?_
    cases trail with
    | nil => simp
    | cons level trail => simpa using hlast

/-- A node that is no block has no declarations right below it. -/
theorem inOther {r : Resolved} {left : Forest Resolved} {child : Tree Resolved}
    (hr : r.isBlock = false) (hchild : child.label.isDeclaration = false)
    (hu : child.Occurs trail u) (h : Resolves names trail u) :
    Resolves names ((r, left) :: trail) u where
  bound := h.bound
  declares hdeclaration := by
    refine ⟨(h.declares hdeclaration).1, ?_⟩
    cases hu with
    | here => simp [hchild] at hdeclaration
    | inside _ => simpa using (h.declares hdeclaration).2
  sees token htoken hlast := by
    rw [Trail.names, if_neg (by simp [hr]), List.append_nil]
    refine h.sees token htoken ?_
    cases trail with
    | nil => simp
    | cons level trail => simpa using hlast

end Resolves

private theorem ExprTyped.label_isDeclaration {type : VarType} (h : ExprTyped types names t type) :
    t.label.isDeclaration = false := by
  cases h <;> rfl

/-- Two operands resolve their names under a node that is no block and no declaration. -/
theorem resolves_pair {r : Resolved} {first second : Tree Resolved} (hr : r.isBlock = false)
    (hsymbol : r.symbol = none) (hdeclaration : r.isDeclaration = false)
    (hfirst : first.label.isDeclaration = false) (hsecond : second.label.isDeclaration = false)
    (ihfirst : ∀ trail u, first.Occurs trail u → Resolves names trail u)
    (ihsecond : ∀ trail u, second.Occurs trail u → Resolves names trail u)
    (hu : Tree.Occurs (.node r [first, second]) trail u) : Resolves names trail u := by
  rcases Tree.occurs_pair_iff.mp hu with ⟨rfl, rfl⟩ | ⟨rest, rfl, h⟩ | ⟨rest, rfl, h⟩
  · exact .plain hsymbol rfl hdeclaration
  · exact (ihfirst rest u h).inOther hr hfirst h
  · exact (ihsecond rest u h).inOther hr hsecond h

private theorem resolves_leaf {r : Resolved} (h : Resolves names [] (.leaf r))
    (hu : (Tree.leaf r).Occurs trail u) : Resolves names trail u := by
  obtain ⟨rfl, rfl⟩ := Tree.occurs_leaf_iff.mp hu
  exact h

private theorem ExprTyped.resolves {type : VarType} (h : ExprTyped types names t type) :
    ∀ trail u, t.Occurs trail u → Resolves names trail u := by
  induction h with
  | digit _ _ | flag _ _ | text _ => exact fun _ _ ↦ resolves_leaf (.plain rfl rfl rfl)
  | var hlookup _ => exact fun _ _ ↦ resolves_leaf (.identifier hlookup)
  | sum hleft hright ihleft ihright =>
    exact fun _ _ ↦ resolves_pair rfl rfl rfl hleft.label_isDeclaration hright.label_isDeclaration
      ihleft ihright
  | compare _ _ hleft hright ihleft ihright =>
    exact fun _ _ ↦ resolves_pair rfl rfl rfl hleft.label_isDeclaration hright.label_isDeclaration
      ihleft ihright

/-- The names in scope after a statement are those before it and what it declares. -/
theorem StmtTyped.later_eq (h : StmtTyped types names n t later last) :
    later = Forest.declares [t] ++ names := by
  cases h <;> rfl

/-- A statement that leaves the names in scope as they are is no declaration. -/
theorem StmtTyped.label_isDeclaration (h : StmtTyped types names n t names last) :
    t.label.isDeclaration = false := by
  cases h <;> rfl

private theorem resolves_declare {type name : Mark} {symbol : SymbolId}
    (hu : Tree.Occurs (.node { node := .branch .varDecl }
      [.leaf { node := .leaf (type.token .typeWord) },
        .leaf { node := .leaf (name.token .identifier), symbol := some symbol }]) trail u) :
    Resolves names trail u := by
  rcases Tree.occurs_pair_iff.mp hu with ⟨rfl, rfl⟩ | ⟨rest, rfl, h⟩ | ⟨rest, rfl, h⟩
  · exact {
      bound := rfl
      declares := fun _ ↦ ⟨⟨⟨type.token .typeWord, name.token .identifier, symbol⟩, rfl, rfl⟩,
        by simp⟩
      sees := fun token htoken ↦ by cases htoken }
  · obtain ⟨rfl, rfl⟩ := Tree.occurs_leaf_iff.mp h
    exact .plain rfl rfl rfl
  -- The name of a declaration has its symbol from the declaration, not from what is in scope.
  · obtain ⟨rfl, rfl⟩ := Tree.occurs_leaf_iff.mp h
    exact {
      bound := rfl
      declares := fun hdeclaration ↦ by cases hdeclaration
      sees := fun token htoken hlast ↦ by cases hlast _ rfl }

mutual

private theorem StmtTyped.resolves {names later : Bindings} {n last : Nat} {t : Tree Resolved}
    (h : StmtTyped types names n t later last) :
    ∀ trail u, t.Occurs trail u → Resolves names trail u := by
  cases h with
  | declare _ _ => exact fun _ _ ↦ resolves_declare
  | assign hlookup hvalue =>
    exact fun _ _ ↦ resolves_pair rfl rfl rfl rfl hvalue.label_isDeclaration
      (fun _ _ ↦ resolves_leaf (.identifier hlookup)) hvalue.resolves
  | print hvalue =>
    intro trail u hu
    rcases Tree.occurs_single_iff.mp hu with ⟨rfl, rfl⟩ | ⟨rest, rfl, h⟩
    · exact .plain rfl rfl rfl
    · exact (hvalue.resolves rest u h).inOther rfl hvalue.label_isDeclaration h
  | ifThen hcondition hbody =>
    exact fun _ _ ↦ resolves_pair rfl rfl rfl hcondition.label_isDeclaration
      hbody.label_isDeclaration hcondition.resolves (StmtTyped.resolves hbody)
  | whileDo hcondition hbody =>
    exact fun _ _ ↦ resolves_pair rfl rfl rfl hcondition.label_isDeclaration
      hbody.label_isDeclaration hcondition.resolves (StmtTyped.resolves hbody)
  | block hbody =>
    intro trail u hu
    rcases Tree.occurs_node_iff.mp hu with ⟨rfl, rfl⟩ | ⟨left, child, right, rest, hsplit, rfl, h⟩
    · exact .plain rfl (Tree.identifier?_branch _ _) rfl
    · exact (StmtsTyped.resolves hbody left child right hsplit rest u h).inBlock rfl

/-- In a list of statements each sees what those before it declare. -/
theorem StmtsTyped.resolves {names later : Bindings} {n last : Nat} {ts : Forest Resolved}
    (h : StmtsTyped types names n ts later last) :
    ∀ left child right, ts = left ++ child :: right → ∀ trail u, child.Occurs trail u →
      Resolves (Forest.declares left ++ names) trail u := by
  cases h with
  | nil =>
    intro left child right hsplit
    simp at hsplit
  | @cons _ mid _ _ _ _ t ts ht hts =>
    have hfirst := StmtTyped.resolves ht
    have hothers := StmtsTyped.resolves hts
    intro left child right hsplit
    cases left with
    | nil =>
      obtain ⟨rfl, rfl⟩ := List.cons.inj hsplit
      exact hfirst
    | cons first left =>
      obtain ⟨rfl, hrest⟩ := List.cons.inj hsplit
      have hnames : Forest.declares (t :: left) ++ names = Forest.declares left ++ mid := by
        rw [ht.later_eq, ← List.append_assoc]
        rfl
      rw [hnames]
      exact hothers left child right hrest

end

/-! ### Analysed programs -/

/-- The scope of a block at the end of a trail: scope zero is around the whole program, and the
blocks have the scopes from one on. -/
def Trail.scope (trail : Trail Resolved) : ScopeId := 1 + Trail.blocks trail

/-- The symbols and scopes of a program are those that its tree shows. -/
structure NamesResolved (root : Tree Resolved) (table : ScopeTable) : Prop where
  /-- Exactly the identifiers stand for symbols. -/
  bound : ∀ i, (∃ symbol, (i, symbol) ∈ Forest.bindings [root]) ↔
    ∃ trail u, root.Occurs trail u ∧ trail.number = i ∧ u.identifier?.isSome = true
  /-- Each node stands for the symbol in its label. -/
  bindings : ∀ i symbol, (i, symbol) ∈ Forest.bindings [root] ↔
    ∃ trail u, root.Occurs trail u ∧ trail.number = i ∧ u.label.symbol = some symbol
  /-- The name of a declaration stands for a symbol of the declared type, in the scope of the
  block right around the declaration. -/
  declared : ∀ trail u, root.Occurs trail u → u.label.isDeclaration = true →
    ∃ (d : Declaration) (outer : Trail Resolved) (r : Resolved) (left : Forest Resolved)
      (entry : Symbol), u = d.tree ∧ d.name.kind = .identifier ∧ trail = outer ++ [(r, left)] ∧
        r.isBlock = true ∧ table.symbols[d.symbol]? = some entry ∧
        entry.name = d.name.lexeme ∧ entry.type = .ofKeyword d.type.lexeme ∧
        entry.token = d.name ∧ entry.scope = outer.scope
  /-- The declarations, in order, have the symbols zero, one, two and so on. -/
  distinct : (root.subtrees.filterMap Tree.declaration?).map Declaration.symbol =
    List.range table.symbols.size
  /-- Any other identifier stands for the symbol of the declaration that it sees. -/
  used : ∀ trail u token, root.Occurs trail u → u.identifier? = some token →
    (∀ level ∈ trail.getLast?, level.1.isDeclaration = false) →
      ∃ symbol, u.label.symbol = some symbol ∧ trail.Sees token.lexeme symbol
  /-- There is a scope for each block, and one around them all. -/
  scopes : table.scopes.size = Forest.blocks [root] + 1
  outermost : table.parent? 0 = none
  /-- The scope of a block is right inside that of the nearest block around it. -/
  nested : ∀ trail u, root.Occurs trail u → u.label.isBlock = true →
    (∀ outer r left inner, trail = outer ++ (r, left) :: inner → r.isBlock = true →
      (∀ level ∈ inner, level.1.isBlock = false) →
        table.parent? trail.scope = some (Trail.scope outer)) ∧
    ((∀ level ∈ trail, level.1.isBlock = false) → table.parent? trail.scope = some 0)
  /-- A name is found in a scope just if it is that of a symbol in the scope. -/
  filed : ∀ scope name symbol, table.lookupLocal? scope name = some symbol ↔
    ∃ entry, table.symbols[symbol]? = some entry ∧ entry.scope = scope ∧ entry.name = name

section Program

open Analysis

variable {root : Tree Resolved} {table : ScopeTable}

/-- The numbers of symbols are those of the entries. -/
theorem ScopeTable.map_snd_declared (table : ScopeTable) :
    table.declared.map Prod.snd = List.range table.symbols.size := by
  rw [ScopeTable.declared, List.zipIdx_map_snd, List.range_eq_range']
  simp

private theorem Analysis.Opened.distinct (h : Opened 0 .start [root] table) :
    (root.subtrees.filterMap Tree.declaration?).map Declaration.symbol =
      List.range table.symbols.size := by
  rw [← table.map_snd_declared, h.symbols, List.map_append, map_snd_declaredBy,
    Forest.enclosed_singleton, Tree.map_fst_enclosed]
  rfl

/-- A declaration right inside a block has its entry in the scope of the block. -/
theorem Analysis.Opened.entry {outer : Trail Resolved} {r : Resolved} {left : Forest Resolved}
    {d : Declaration} (h : Opened 0 .start [root] table)
    (hd : root.Occurs (outer ++ [(r, left)]) d.tree) (hr : r.isBlock = true) :
    ∃ entry, table.symbols[d.symbol]? = some entry ∧ entry.name = d.name.lexeme ∧
      entry.type = .ofKeyword d.type.lexeme ∧ entry.token = d.name ∧
        entry.scope = outer.scope := by
  have hmem := h.mem_declared hd
  rw [show ScopeTable.start.scopes.size = 1 from rfl,
    Trail.scopes_of_last hr (by simp)] at hmem
  obtain ⟨entry, hentry, heq⟩ := ScopeTable.mem_declared.mp hmem
  refine ⟨entry, hentry, ?_⟩
  simpa [Declaration.entry, Trail.scope] using heq

private theorem Analysis.Opened.nested {u : Tree Resolved} {trail : Trail Resolved}
    (h : Opened 0 .start [root] table) (hu : root.Occurs trail u)
    (hblock : u.label.isBlock = true) :
    (∀ outer r left inner, trail = outer ++ (r, left) :: inner → r.isBlock = true →
      (∀ level ∈ inner, level.1.isBlock = false) →
        table.parent? trail.scope = some (Trail.scope outer)) ∧
    ((∀ level ∈ trail, level.1.isBlock = false) → table.parent? trail.scope = some 0) := by
  have hancestors : table.ancestors trail.scope = trail.scopes 1 ++ [0] :=
    h.ancestors_block hu hblock
  constructor
  · intro outer r left inner htrail hr hinner
    rw [ScopeTable.parent?, hancestors, htrail, Trail.scopes_of_last hr hinner]
    rfl
  · intro hnone
    rw [ScopeTable.parent?, hancestors, Trail.scopes_eq_nil hnone]
    rfl

/-- A program that is well typed and whose scopes are those of its blocks resolves its names. -/
theorem namesResolved {n : Nat} (htyped : StmtTyped types [] 0 root [] n)
    (hopened : Opened 0 .start [root] table) : NamesResolved root table where
  bound i := by
    constructor
    · rintro ⟨symbol, h⟩
      obtain ⟨trail, u, hu, hnumber, hsymbol⟩ := Tree.mem_bindings.mp h
      refine ⟨trail, u, hu, hnumber, ?_⟩
      rw [← (htyped.resolves trail u hu).bound, hsymbol, Option.isSome_some]
    · rintro ⟨trail, u, hu, hnumber, hsome⟩
      rw [← (htyped.resolves trail u hu).bound] at hsome
      obtain ⟨symbol, hsymbol⟩ := Option.isSome_iff_exists.mp hsome
      exact ⟨symbol, Tree.mem_bindings.mpr ⟨trail, u, hu, hnumber, hsymbol⟩⟩
  bindings i symbol := Tree.mem_bindings
  declared trail u hu hdeclaration := by
    obtain ⟨⟨d, rfl, hkind⟩, hlast⟩ := (htyped.resolves trail u hu).declares hdeclaration
    cases htrail : trail.getLast? with
    | none =>
      -- The whole program leaves no names in scope, so it is no declaration.
      rw [List.getLast?_eq_none_iff] at htrail
      subst htrail
      cases hu
      cases htyped.label_isDeclaration
    | some level =>
      obtain ⟨outer, rfl⟩ := List.getLast?_eq_some_iff.mp htrail
      have hr := hlast level htrail
      obtain ⟨entry, hentry⟩ := hopened.entry hu hr
      exact ⟨d, outer, level.1, level.2, entry, rfl, hkind, rfl, hr, hentry⟩
  distinct := hopened.distinct
  used trail u token hu htoken hlast := by
    obtain ⟨symbol, hsymbol, hlookup⟩ := (htyped.resolves trail u hu).sees token htoken hlast
    rw [List.append_nil] at hlookup
    exact ⟨symbol, hsymbol, Trail.sees_of_lookup hlookup⟩
  scopes := hopened.size_eq.trans (Nat.add_comm 1 _)
  outermost := by
    rw [ScopeTable.parent?, hopened.ancestors_eq (by decide)]
    rfl
  nested trail u := hopened.nested
  filed := hopened.filed ScopeTable.filed_start

end Program

/-- Every source text that can be analysed has its names resolved. -/
theorem analyze_resolves_names (source : String) (tokens : List Token) (program : Forest Node)
    (a : Analysis) (hscan : (Scan.ofSource source).result = .ok tokens)
    (hparse : (parse tokens).result = .ok program)
    (hanalyze : (analyze program).result = .ok a) :
    ∃ root, a.tree = [root] ∧ NamesResolved root a.table := by
  obtain ⟨root, htree, htyped⟩ := stages_typed hscan hparse hanalyze
  have hopened := analyze_opened hanalyze
  rw [htree] at hopened
  exact ⟨root, htree, namesResolved htyped hopened⟩

/-- A source in which a name is used in a block before and after the block declares it again, and
then in a block beside it. -/
def sideBySide : String :=
  "\x7bint a a = 1 \x7ba = 2 string a a = \"x\"\x7d \x7bprint(a)\x7d\x7d$"

/-- The first use in the block stands for the outer variable, the second for the inner one. -/
theorem analyze_resolves_names_sideBySide : ∃ tokens program a,
    (Scan.ofSource sideBySide).result = .ok tokens ∧ (parse tokens).result = .ok program ∧
    (analyze program).result = .ok a ∧
    Forest.bindings a.tree = [(3, 0), (5, 0), (9, 0), (13, 1), (15, 1), (19, 0)] ∧
    ∃ root, a.tree = [root] ∧ NamesResolved root a.table := by
  have hbindings : (compile sideBySide).result.toOption.map (Forest.bindings ·.analysis.tree) =
      some [(3, 0), (5, 0), (9, 0), (13, 1), (15, 1), (19, 0)] := by decide +kernel
  cases h : (compile sideBySide).result with
  | error e =>
    rw [h] at hbindings
    cases hbindings
  | ok artifact =>
    rw [h] at hbindings
    obtain ⟨hscan, hparse, hanalyze, _⟩ := compile_eq_ok h
    exact ⟨_, _, _, hscan, hparse, hanalyze, Option.some.inj hbindings,
      analyze_resolves_names _ _ _ _ hscan hparse hanalyze⟩

end OnePage
