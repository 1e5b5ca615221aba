import OnePage.Proofs.Arena
import OnePage.Proofs.Walking

/-!
# Nested scopes

A table of scopes grows by two kinds of changes: a scope is opened inside another, or a variable is
declared in a scope. Whatever the changes and their order, the scopes stay nested and the table
recalls what was opened and declared where. What a name stands for is the last symbol declared under
it in the nearest scope outward, and only a declaration of that name on the way can change it. The
table is one stored as an arena, where each scope has the number of its parent and the list of its
children.
-/

namespace OnePage

/-- The numbers of those with a key, where the first of all has the given number. -/
def places {κ : Type} [DecidableEq κ] (first : Nat) (keys : List κ) (key : κ) : List Nat :=
  ((keys.zipIdx first).filter fun e ↦ decide (e.1 = key)).map Prod.snd

private theorem places_concat {κ : Type} [DecidableEq κ] (first : Nat) (keys : List κ)
    (last key : κ) :
    places first (keys ++ [last]) key =
      places first keys key ++ if last = key then [first + keys.length] else [] := by
  by_cases h : last = key <;> simp [places, List.zipIdx_append, h]

namespace ScopeTable

/-! ### Changes and what they leave a record of -/

/-- A change to a table of scopes. -/
inductive Change where
  | adopt (parent : ScopeId)
  | declare (scope : ScopeId) (type : VarType) (token : Token)

/-- The scope that has to be there. -/
def Change.scope : Change → ScopeId
  | adopt parent => parent
  | declare scope _ _ => scope

/-- The scopes that others are opened in, in order. -/
def adoptions : List Change → List ScopeId
  | [] => []
  | .adopt parent :: rest => parent :: adoptions rest
  | .declare _ _ _ :: rest => adoptions rest

/-- The scopes and names of the declarations, in order. -/
def declarations : List Change → List (ScopeId × String)
  | [] => []
  | .adopt _ :: rest => declarations rest
  | .declare scope _ token :: rest => (scope, token.lexeme) :: declarations rest

private theorem adoptions_append (xs ys : List Change) :
    adoptions (xs ++ ys) = adoptions xs ++ adoptions ys := by
  fun_induction adoptions xs <;> simp_all [adoptions]

private theorem declarations_append (xs ys : List Change) :
    declarations (xs ++ ys) = declarations xs ++ declarations ys := by
  fun_induction declarations xs <;> simp_all [declarations]

/-- Make a change. -/
def take (table : ScopeTable) : Change → ScopeTable
  | .adopt parent => (table.adopt parent).2
  | .declare scope type token => (table.declare scope type token).2

/-- The changes, each in a scope that is there, lead from the first table to the second. -/
inductive Grows : ScopeTable → List Change → ScopeTable → Prop where
  | stay (table : ScopeTable) : Grows table [] table
  | change {table last : ScopeTable} {change : Change} {rest : List Change} :
      change.scope < table.scopes.size → Grows (table.take change) rest last →
        Grows table (change :: rest) last

/-- What holds of a table and the changes so far, and goes on to hold with each change, holds at
the end of a run. -/
theorem Grows.invariant (holds : List Change → ScopeTable → Prop)
    (step : ∀ {before : List Change} {table : ScopeTable} {change : Change},
      change.scope < table.scopes.size → holds before table →
        holds (before ++ [change]) (table.take change))
    {table last : ScopeTable} {changes : List Change} (h : Grows table changes last)
    (before : List Change) (start : holds before table) : holds (before ++ changes) last := by
  induction h generalizing before with
  | stay table =>
    rw [List.append_nil]
    exact start
  | change hscope _ ih =>
    have hlast := ih _ (step hscope start)
    rw [List.append_assoc] at hlast
    exact hlast

/-- The table holds what the changes so far say: scopes are numbered from one in the order in which
they were opened, symbols from zero in the order of the declarations, and a name stands for the last
symbol declared under it. -/
structure Recalls (changes : List Change) (table : ScopeTable) : Prop where
  scopes : table.scopes.size = (adoptions changes).length + 1
  parents : ∀ i, table.parent? (i + 1) = (adoptions changes)[i]?
  children : ∀ scope, table.children scope = places 1 (adoptions changes) scope
  symbols : (table.symbols.toList.map fun s ↦ (s.scope, s.name)) = declarations changes
  names : ∀ scope name, table.lookupLocal? scope name =
    (places 0 (declarations changes) (scope, name)).getLast?

variable {table : ScopeTable}

/-! ### One change -/

private theorem lookupLocal?_adopt (table : ScopeTable) (parent scope : ScopeId) (name : String) :
    (table.adopt parent).2.lookupLocal? scope name = table.lookupLocal? scope name := by
  rw [lookupLocal?, names_adopt, lookupLocal?]

private theorem size_adopt (table : ScopeTable) (parent : ScopeId) :
    (table.adopt parent).2.scopes.size = table.scopes.size + 1 := by
  simp [adopt]

private theorem size_declare (table : ScopeTable) (scope : ScopeId) (type : VarType)
    (token : Token) :
    (table.declare scope type token).2.scopes.size = table.scopes.size := by
  simp [declare]

private theorem parent?_adopt (table : ScopeTable) (parent scope : ScopeId) :
    (table.adopt parent).2.parent? scope =
      if scope = table.scopes.size then some parent else table.parent? scope := by
  by_cases h : scope = table.scopes.size
  · rw [if_pos h, h, parent?, ancestors_adopt_self, List.head?_cons]
  · rw [if_neg h, parent?, ancestors_adopt_of_ne table parent h, parent?]

private theorem parent?_declare (table : ScopeTable) (scope other : ScopeId) (type : VarType)
    (token : Token) : (table.declare scope type token).2.parent? other = table.parent? other := by
  rw [parent?, ancestors_declare, parent?]

/-- A new scope comes last among the scopes inside its parent, and is inside no other. -/
theorem children_adopt (table : ScopeTable) (parent scope : ScopeId) :
    (table.adopt parent).2.children scope =
      table.children scope ++ if parent = scope then [table.scopes.size] else [] := by
  have hold : (List.range table.scopes.size).filter
        ((table.adopt parent).2.parent? · == some scope) = table.children scope := by
    apply List.filter_congr
    intro other hother
    rw [parent?_adopt, if_neg (Nat.ne_of_lt (List.mem_range.mp hother))]
  rw [children, size_adopt, List.range_succ, List.filter_append, hold]
  by_cases h : parent = scope <;> simp [parent?_adopt, h]

private theorem children_declare (table : ScopeTable) (scope other : ScopeId) (type : VarType)
    (token : Token) :
    (table.declare scope type token).2.children other = table.children other := by
  simp only [children, size_declare, parent?_declare]

private theorem ancestors_take {scope : ScopeId} (change : Change)
    (hlt : scope < table.scopes.size) :
    (table.take change).ancestors scope = table.ancestors scope := by
  cases change with
  | adopt parent => exact ancestors_adopt_of_ne table parent (Nat.ne_of_lt hlt)
  | declare other type token => exact ancestors_declare table other scope type token

private theorem size_le_take (table : ScopeTable) (change : Change) :
    table.scopes.size ≤ (table.take change).scopes.size := by
  cases change with
  | adopt parent =>
    rw [take, size_adopt]
    exact Nat.le_succ _
  | declare scope type token => exact Nat.le_of_eq (size_declare ..).symm

private theorem recalls_start : Recalls [] .start where
  scopes := rfl
  parents i := by simp [parent?, ancestors, start, adoptions]
  children scope := by simp [children, parent?, ancestors, start, places, adoptions]
  symbols := rfl
  names scope name := by
    cases scope <;> simp [lookupLocal?, ScopeTable.names, start, Names.find?, places, declarations]

private theorem Recalls.take {before : List Change} {change : Change}
    (hscope : change.scope < table.scopes.size) (h : Recalls before table) :
    Recalls (before ++ [change]) (table.take change) := by
  cases change with
  | adopt parent =>
    have hadopts : adoptions (before ++ [Change.adopt parent]) = adoptions before ++ [parent] :=
      adoptions_append ..
    have hdeclares : declarations (before ++ [Change.adopt parent]) = declarations before := by
      rw [declarations_append, declarations, declarations, List.append_nil]
    refine ⟨?_, ?_, ?_, ?_, ?_⟩
    · rw [ScopeTable.take, size_adopt, hadopts, h.scopes, List.length_append, List.length_singleton]
    · intro i
      rw [ScopeTable.take, parent?_adopt, hadopts, h.scopes, h.parents, List.getElem?_append]
      grind
    · intro scope
      rw [ScopeTable.take, children_adopt, hadopts, places_concat, h.children, h.scopes,
        Nat.add_comm 1]
    · rw [hdeclares, ← h.symbols]
      rfl
    · intro scope name
      rw [ScopeTable.take, lookupLocal?_adopt, hdeclares, h.names]
  | declare scope type token =>
    have hadopts : adoptions (before ++ [Change.declare scope type token]) = adoptions before := by
      rw [adoptions_append, adoptions, adoptions, List.append_nil]
    have hdeclares : declarations (before ++ [Change.declare scope type token]) =
        declarations before ++ [(scope, token.lexeme)] := declarations_append ..
    refine ⟨?_, ?_, ?_, ?_, ?_⟩
    · rw [ScopeTable.take, size_declare, hadopts, h.scopes]
    · intro i
      rw [ScopeTable.take, parent?_declare, hadopts, h.parents]
    · intro other
      rw [ScopeTable.take, children_declare, hadopts, h.children]
    · rw [hdeclares, ← h.symbols]
      simp [ScopeTable.take, declare]
    · intro other name
      have hlt : scope < table.scopes.size := hscope
      have hsize : (declarations before).length = table.symbols.size := by
        rw [← h.symbols, List.length_map, Array.length_toList]
      rw [ScopeTable.take, lookupLocal?_declare, hdeclares, places_concat, List.getLast?_append,
        h.names, hsize]
      by_cases hsame : scope = other ∧ token.lexeme = name
      · rw [if_pos ⟨hsame.1, hlt, hsame.2⟩, if_pos (by rw [hsame.1, hsame.2])]
        simp
      · rw [if_neg (by grind), if_neg (by grind)]
        simp

end ScopeTable

/-! ### Scopes as they are stored -/

/-- Scopes and symbols as they are stored: a scope has a link to the scope around it and links to
those inside it, and both are made when it is opened. -/
structure ScopeArena where
  scopes : Nodes Names := [{ label := [], parent := none, children := [] }]
  symbols : Array Symbol := #[]

namespace ScopeArena

/-- Make a change. -/
def take (a : ScopeArena) : ScopeTable.Change → ScopeArena
  | .adopt parent => { a with scopes := a.scopes.add [] (some parent) }
  | .declare scope type token =>
    { scopes := a.scopes.relabel scope (·.insert token.lexeme a.symbols.size)
      symbols := a.symbols.push { name := token.lexeme, type, token, scope } }

/-- What is stored after some changes. -/
def after (changes : List ScopeTable.Change) : ScopeArena := changes.foldl take {}

end ScopeArena

namespace ScopeTable

/-- The table says what is stored, and the links fit each other. -/
structure StoredIn (table : ScopeTable) (a : ScopeArena) : Prop where
  scopes : a.scopes.length = table.scopes.size
  parents : a.scopes.parent = table.parent?
  children : a.scopes.children = table.children
  names : ∀ scope, a.scopes.label? scope = table.scopes[scope]?.map Scope.names
  symbols : a.symbols = table.symbols
  linked : a.scopes.Linked

variable {table : ScopeTable}

private theorem storedIn_start : StoredIn .start {} where
  scopes := rfl
  parents := by
    funext scope
    cases scope <;> rfl
  children := by
    funext scope
    cases scope <;> simp [ScopeTable.children, parent?, ancestors, start, Nodes.children]
  names scope := by cases scope <;> rfl
  symbols := rfl
  linked := by
    have hadded : (Nodes.add ([] : Names) none []).Linked :=
      Nodes.linked_nil.add fun _ hp ↦ by cases hp
    exact hadded

private theorem StoredIn.take {a : ScopeArena} {change : Change} (h : table.StoredIn a)
    (hscope : change.scope < table.scopes.size) :
    (table.take change).StoredIn (a.take change) := by
  cases change with
  | adopt parent =>
    have hbelow : ∀ p, some parent = some p → p < a.scopes.length := by
      rintro p ⟨⟩
      rwa [h.scopes]
    refine ⟨?_, ?_, ?_, ?_, h.symbols, h.linked.add hbelow⟩
    · rw [ScopeTable.take, size_adopt, ← h.scopes]
      exact Nodes.length_add [] (some parent) a.scopes
    · funext scope
      rw [ScopeTable.take, parent?_adopt, ← h.parents, ← h.scopes]
      exact Nodes.parent_add [] (some parent) a.scopes scope
    · funext scope
      rw [ScopeTable.take, children_adopt, ← h.children, ← h.scopes]
      refine (Nodes.children_add hbelow scope).trans ?_
      simp only [Option.some.injEq]
    · intro scope
      rw [ScopeArena.take, Nodes.label?_add, h.names, h.scopes, ScopeTable.take, ScopeTable.adopt,
        Array.getElem?_push, apply_ite (Option.map Scope.names)]
      rfl
  | declare scope type token =>
    refine ⟨?_, ?_, ?_, ?_, ?_, h.linked.relabel ..⟩
    · rw [ScopeTable.take, size_declare, ← h.scopes]
      exact Nodes.length_relabel ..
    · funext other
      rw [ScopeTable.take, parent?_declare, ← h.parents, ScopeArena.take, Nodes.parent_relabel]
    · funext other
      rw [ScopeTable.take, children_declare, ← h.children, ScopeArena.take, Nodes.children_relabel]
    · intro other
      rw [ScopeArena.take, Nodes.label?_relabel, h.names, h.symbols, ScopeTable.take,
        ScopeTable.declare, Array.getElem?_modify, apply_ite (Option.map Scope.names),
        Option.map_map, Option.map_map]
      rfl
    · rw [ScopeTable.take, ScopeArena.take, ScopeTable.declare, h.symbols]

/-! ### Any changes -/

private theorem nested_start : Nested .start where
  nonempty := by decide
  outermost := rfl
  inner scope hpos hlt := absurd hlt (Nat.not_lt_of_ge hpos)

/-- The scopes that are there stay as they are, and a new one is inside one of them. -/
theorem Nested.take {change : Change} (hscope : change.scope < table.scopes.size)
    (h : Nested table) : Nested (table.take change) := by
  have hkeep : ∀ scope < table.scopes.size,
      (table.take change).ancestors scope = table.ancestors scope :=
    fun _ ↦ ancestors_take change
  refine ⟨h.nonempty.trans_le (table.size_le_take change), ?_, ?_⟩
  · rw [hkeep 0 h.nonempty, h.outermost]
  · intro scope hpos hlt
    by_cases hold : scope < table.scopes.size
    · obtain ⟨above, habove, hchain⟩ := h.inner scope hpos hold
      exact ⟨above, habove, by rw [hkeep scope hold, hkeep above (habove.trans hold), hchain]⟩
    · cases change with
      | adopt parent =>
        rw [ScopeTable.take, size_adopt] at hlt
        have hnew : scope = table.scopes.size :=
          Nat.le_antisymm (Nat.le_of_lt_succ hlt) (Nat.le_of_not_lt hold)
        refine ⟨parent, hnew ▸ hscope, ?_⟩
        rw [hkeep parent hscope, hnew, ScopeTable.take, ancestors_adopt_self]
      | declare other type token =>
        rw [ScopeTable.take, size_declare] at hlt
        exact absurd hlt hold

private theorem Grows.recalls {changes : List Change} (h : Grows .start changes table) :
    Recalls changes table :=
  h.invariant Recalls Recalls.take [] recalls_start

private theorem Grows.nested {changes : List Change} (h : Grows .start changes table) :
    Nested table :=
  h.invariant (fun _ ↦ Nested) Nested.take [] nested_start

private theorem Grows.storedIn {changes : List Change} (h : Grows .start changes table) :
    table.StoredIn (.after changes) := by
  refine h.invariant (fun before table ↦ table.StoredIn (.after before)) ?_ [] storedIn_start
  intro before table change hscope hstored
  rw [ScopeArena.after, List.foldl_append]
  exact hstored.take hscope

/-! ### What a name stands for -/

/-- The change does not declare the name on the way outward: it opens a scope, or declares another
name, or declares something off the way. -/
def Change.Spares (chain : List ScopeId) (name : String) : Change → Prop
  | adopt _ => True
  | declare scope _ token => token.lexeme ≠ name ∨ scope ∉ chain

private theorem lookupLocal?_take {change : Change} {chain : List ScopeId} {name : String}
    {scope : ScopeId} (h : change.Spares chain name) (hmem : scope ∈ chain) :
    (table.take change).lookupLocal? scope name = table.lookupLocal? scope name := by
  cases change with
  | adopt parent => exact lookupLocal?_adopt table parent scope name
  | declare other type token =>
    rw [take, lookupLocal?_declare, if_neg]
    rintro ⟨rfl, -, hname⟩
    exact h.elim (fun hother ↦ hother hname) fun hoff ↦ hoff hmem

private theorem lookup?_take {scope : ScopeId} {name : String} {change : Change}
    (hlt : scope < table.scopes.size) (h : change.Spares (scope :: table.ancestors scope) name) :
    (table.take change).lookup? scope name = table.lookup? scope name := by
  rw [lookup?, ancestors_take change hlt, lookup?]
  exact findSome?_congr fun _ ↦ lookupLocal?_take h

/-- No changes that spare a name on the way outward from a scope make it stand for another symbol
there. -/
theorem Grows.lookup?_eq {last : ScopeTable} {changes : List Change} {scope : ScopeId}
    {name : String} (h : Grows table changes last) (hlt : scope < table.scopes.size)
    (hspares : ∀ change ∈ changes, change.Spares (scope :: table.ancestors scope) name) :
    last.lookup? scope name = table.lookup? scope name := by
  induction h with
  | stay table => rfl
  | @change table last change rest hscope _ ih =>
    have hfirst := hspares change (List.mem_cons_self ..)
    have hkeep := ancestors_take change hlt
    rw [← lookup?_take hlt hfirst]
    apply ih (hlt.trans_le (table.size_le_take change))
    intro other hother
    rw [hkeep]
    exact hspares other (List.mem_cons_of_mem _ hother)

/-- After any changes the table recalls them and says what is stored, where each scope but the
outermost is listed once among those inside its parent. The scopes form a tree, a walk passes that
tree in order, and a name stands for the last symbol declared under it in the nearest scope outward,
for as long as no later change declares it on the way there. -/
theorem scopes_nested {changes : List Change} (h : Grows .start changes table) :
    Recalls changes table ∧
    (table.StoredIn (.after changes) ∧
      ∀ scope, 0 < scope → scope < table.scopes.size → ∃ parent < scope,
        (ScopeArena.after changes).scopes.parent scope = some parent ∧
          ((ScopeArena.after changes).scopes.children parent).count scope = 1) ∧
    table.parent? 0 = none ∧
    (∀ scope, 0 < scope → scope < table.scopes.size → ∃ parent < scope,
      table.parent? scope = some parent ∧ (table.children parent).count scope = 1) ∧
    (table.walk.Perm (List.range table.scopes.size) ∧
      (table.walk.Pairwise fun a b ↦
        table.parent? a ≠ some b ∧ (table.parent? a = table.parent? b → a < b)) ∧
      ∀ order, Visits table.children [0] order ↔ order = table.walk) ∧
    ∀ scope < table.scopes.size, ∃ chain, Ascends table.parent? scope chain ∧
      (scope :: chain).getLast? = some 0 ∧ table.depth scope = chain.length ∧
      ∀ name,
        (∀ symbol, table.lookup? scope name = some symbol ↔ ∃ nearer found farther,
          scope :: chain = nearer ++ found :: farther ∧
            table.lookupLocal? found name = some symbol ∧
              ∀ inner ∈ nearer, table.lookupLocal? inner name = none) ∧
        (table.lookup? scope name = none ↔
          ∀ outer ∈ scope :: chain, table.lookupLocal? outer name = none) ∧
        ∀ later last, Grows table later last →
          (∀ change ∈ later, change.Spares (scope :: chain) name) →
            last.lookup? scope name = table.lookup? scope name := by
  have hnested := h.nested
  have hstored := h.storedIn
  refine ⟨h.recalls, ⟨hstored, ?_⟩, hnested.parent?_zero, ?_,
    ⟨table.walk_perm, hnested.walk_ordered, hnested.visits_walk⟩, ?_⟩
  · intro scope hpos hlt
    obtain ⟨parent, hparent⟩ := hnested.exists_parent hpos hlt
    rw [← hstored.parents] at hparent
    exact ⟨parent, hstored.linked.parent_lt _ _ hparent, hparent,
      hstored.linked.count_children hparent⟩
  · intro scope hpos hlt
    obtain ⟨parent, hparent⟩ := hnested.exists_parent hpos hlt
    exact ⟨parent, (hnested.of_parent hparent).1, hparent, hnested.count_children hparent⟩
  · intro scope hlt
    refine ⟨table.ancestors scope, hnested.ascends hlt, hnested.getLast?_chain hlt, rfl, ?_⟩
    intro name
    refine ⟨fun _ ↦ List.findSome?_eq_some_iff, List.findSome?_eq_none_iff, ?_⟩
    intro later last hlater hspares
    exact hlater.lookup?_eq hlt hspares

/-- Two scopes side by side and one inside the first. A name is declared in the inner scope, twice
in the scope around it, and never in the last. -/
def shadowing : List Change :=
  let a : Token := { lexeme := "a", kind := .identifier, position := { line := 1, column := 1 } }
  [.adopt 0, .adopt 1, .declare 1 .int a, .declare 2 .string a, .adopt 0, .declare 1 .boolean a]

/-- The name stands for the inner declaration in the inner scope and for the second outer one around
it. Declaring it in the last scope as well changes neither. -/
theorem scopes_nested_shadowing :
    ∃ table, Grows .start shadowing table ∧ table.walk = [0, 1, 2, 3] ∧
      table.lookup? 2 "a" = some 1 ∧ table.lookup? 1 "a" = some 2 ∧ table.lookup? 3 "a" = none ∧
        ∀ last type token, Grows table [.declare 3 type token] last →
          last.lookup? 2 "a" = some 1 := by
  have hgrows : Grows .start shadowing (shadowing.foldl take .start) := by
    repeat refine .change (by decide) ?_
    exact .stay _
  obtain ⟨-, -, -, -, ⟨-, -, hwalk⟩, hscope⟩ := scopes_nested hgrows
  refine ⟨_, hgrows, ?_, by decide, by decide, by decide, ?_⟩
  · refine ((hwalk [0, 1, 2, 3]).mp ?_).symm
    exact .visit (.visit (.visit (.visit .done)))
  · intro last type token hlater
    obtain ⟨chain, hascends, -, -, hname⟩ := hscope 2 (by decide)
    have hchain : chain = [1, 0] := hascends.unique (.up rfl (.up rfl (.top rfl)))
    obtain ⟨hsome, -, hlast⟩ := hname "a"
    rw [hlast _ last hlater (by simp [Change.Spares, hchain]), hsome, hchain]
    exact ⟨[], 2, [1, 0], rfl, by decide, by simp⟩

end ScopeTable

end OnePage
