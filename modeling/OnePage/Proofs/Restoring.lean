import OnePage.Proofs.Conversion
import OnePage.Proofs.Opening
import OnePage.Proofs.Preorder

/-!
# What a conversion leaves as it was

A conversion of a tree, whatever its shape, comes back to the node and to the scope it started from.
What it adds is below that node. It changes nothing that was there before, except that the node gets
more children, after those it has, and that symbols may be marked. If it fails it comes back to the
scope as well, and then no conversion changes anything.
-/

namespace OnePage

variable {α : Type}

/-! ### Labels in a table -/

mutual

/-- The labels of a table are those of the tree, in order. -/
theorem Tree.map_label_entries : ∀ (t : Tree α) (parent : Option Nat) (n : Nat),
    (t.entries parent n).map Entry.label = t.labels
  | .node a ts, parent, n => by
    rw [Tree.entries, List.map_cons, Forest.map_label_entries ts, Tree.labels]

private theorem Forest.map_label_entries : ∀ (ts : Forest α) (parent : Option Nat) (n : Nat),
    (Forest.entries parent n ts).map Entry.label = Forest.labels ts
  | [], _, _ => rfl
  | t :: ts, parent, n => by
    rw [Forest.entries, List.map_append, Tree.map_label_entries t, Forest.map_label_entries ts,
      Forest.labels]

end

/-- A node stands for a symbol just if its entry has the symbol. -/
theorem Forest.mem_bindings {ts : Forest Resolved} {i : Nat} {symbol : SymbolId} :
    (i, symbol) ∈ Forest.bindings ts ↔
      (Forest.table ts)[i]?.bind (·.label.symbol) = some symbol := by
  have hlabel : (Forest.labels ts)[i]? = (Forest.table ts)[i]?.map Entry.label := by
    rw [← Forest.map_label_entries ts none 0, List.getElem?_map, Forest.table]
  constructor
  · intro h
    obtain ⟨entry, hentry, hsymbol⟩ := List.mem_filterMap.mp h
    obtain ⟨s, hs, heq⟩ := Option.map_eq_some_iff.mp hsymbol
    cases heq
    rw [List.mem_zipIdx_iff_getElem?, hlabel, Option.map_eq_some_iff] at hentry
    obtain ⟨e, he, hr⟩ := hentry
    rw [he, Option.bind_some, hr, hs]
  · intro h
    obtain ⟨e, he, hs⟩ := Option.bind_eq_some_iff.mp h
    refine List.mem_filterMap.mpr ⟨(e.label, i), ?_, by simp [hs]⟩
    rw [List.mem_zipIdx_iff_getElem?, hlabel, he]
    rfl

/-! ### Trees added to a table -/

namespace Nodes

/-- More trees, as the last children of their parent if they have one. -/
def graft (ts : Forest α) (parent : Option Nat) (nodes : Nodes α) : Nodes α :=
  let linked := match parent with
    | none => nodes
    | some p => nodes.modify p fun e ↦
      { e with children := e.children ++ Forest.numbers nodes.length ts }
  linked ++ Forest.entries parent nodes.length ts

/-- The nodes as they are after others have been added below the cursor. -/
structure Extends (cursor : Option Nat) (nodes next : Nodes α) : Prop where
  /-- A node keeps its label, its parent and its children; only that under the cursor gets more. -/
  kept : ∀ i e, nodes[i]? = some e → ∃ more,
    next[i]? = some { e with children := e.children ++ more } ∧
      (∀ child ∈ more, nodes.length ≤ child) ∧ (cursor ≠ some i → more = [])
  /-- The others are below the cursor or, if there is none, below a node that is new as well. -/
  added : ∀ i, nodes.length ≤ i → i < next.length → ∃ chain, Ascends next.parent i chain ∧
    (∀ p, cursor = some p → p ∈ chain) ∧ (cursor = none → nodes.length ≤ chain.getLastD i)

private theorem length_graft (ts : Forest α) (parent : Option Nat) (nodes : Nodes α) :
    (nodes.graft ts parent).length = nodes.length + Forest.size ts := by
  cases parent <;> simp [graft, Forest.length_entries]

private theorem holds_graft (ts : Forest α) (parent : Option Nat) (nodes : Nodes α) :
    (nodes.graft ts parent).Holds nodes.length (Forest.entries parent nodes.length ts) := by
  cases parent with
  | none => exact ⟨[], by simp [graft]⟩
  | some p => exact ⟨[], by simp [graft]⟩

private theorem getElem?_graft (ts : Forest α) (parent : Option Nat) {nodes : Nodes α} {i : Nat}
    {e : Entry α} (h : nodes[i]? = some e) :
    (nodes.graft ts parent)[i]? = some { e with
      children := e.children ++
        if parent = some i then Forest.numbers nodes.length ts else [] } := by
  have hi := (List.getElem?_eq_some_iff.mp h).1
  cases parent with
  | none => simp [graft, List.getElem?_append_left hi, h]
  | some p =>
    rw [graft, List.getElem?_append_left (by simpa using hi), List.getElem?_modify, h]
    by_cases hp : p = i <;> simp [hp]

end Nodes

/-- The roots of a forest have no number before its first. -/
theorem Forest.le_of_mem_numbers {n i : Nat} {ts : Forest α} (h : i ∈ Forest.numbers n ts) :
    n ≤ i := by
  induction ts generalizing n with
  | nil => cases h
  | cons t ts ih =>
    rcases List.mem_cons.mp h with rfl | h
    · exact Nat.le_refl _
    · exact Nat.le_trans (Nat.le_add_right ..) (ih h)

namespace Builder

private theorem forest_attachAll (ts : Forest α) (b : Builder α) :
    (b.attachAll ts).forest = b.complete ++ closeSpine ts b.spine := by
  obtain ⟨complete, spine⟩ := b
  cases spine with
  | nil =>
    rw [attachAll_closed]
    simp [forest, closeSpine]
  | cons n above =>
    rw [attachAll_open]
    simp [forest, closeSpine]

/-- Trees get the next numbers and are linked to the node under the cursor. -/
theorem table_attachAll (ts : Forest α) (b : Builder α) :
    Forest.table (b.attachAll ts).forest = Nodes.graft ts b.cursor? (Forest.table b.forest) := by
  rw [forest_attachAll]
  cases h : b.spine with
  | nil =>
    rw [cursor?_eq, h, forest, h, Forest.table, Forest.entries_append, Forest.table]
    simp [closeSpine, innermost, Nodes.graft, Forest.length_entries]
  | cons n above =>
    obtain ⟨front, hcursor, htable⟩ := table_of_open h
    have hlink : ∀ (e : Entry α) (back : Nodes α) (change : Entry α → Entry α),
        (front ++ e :: back).modify front.length change = front ++ change e :: back :=
      fun e back change ↦ List.modifyTailIdx_add (List.modifyHead change) 0 front (e :: back)
    rw [htable, forest, h, htable, hcursor, Nodes.graft, List.append_nil, Tree.entries,
      Tree.entries, Forest.numbers_append, Forest.entries_append]
    have hnext : front.length + (Forest.size n.children + 1) =
        front.length + 1 + Forest.size n.children := by omega
    simp only [hlink]
    simp [Forest.length_entries, hnext]

private theorem cursor?_attachAll (ts : Forest α) (b : Builder α) :
    (b.attachAll ts).cursor? = b.cursor? := by
  induction ts generalizing b with
  | nil => rfl
  | cons t ts ih => exact (ih (b.attach t)).trans (cursor?_attach t b)

private theorem lt_of_cursor? {b : Builder α} {p : Nat} (h : b.cursor? = some p) :
    p < (Forest.table b.forest).length := by
  cases hspine : b.spine with
  | nil =>
    rw [cursor?_eq, hspine] at h
    cases h
  | cons n above =>
    obtain ⟨front, hcursor, htable⟩ := table_of_open hspine
    rw [h, Option.some.injEq] at hcursor
    rw [forest, hspine, htable, hcursor, Tree.entries]
    simp

/-- Adding trees leaves the other nodes as they are. -/
theorem extends_attachAll (ts : Forest α) (b : Builder α) :
    Nodes.Extends b.cursor? (Forest.table b.forest) (Forest.table (b.attachAll ts).forest) where
  kept i e he := by
    refine ⟨if b.cursor? = some i then Forest.numbers (Forest.table b.forest).length ts else [],
      ?_, fun child hchild ↦ ?_, fun hi ↦ if_neg hi⟩
    · rw [table_attachAll]
      exact Nodes.getElem?_graft ts b.cursor? he
    · split at hchild
      · exact Forest.le_of_mem_numbers hchild
      · cases hchild
  added i hle hlt := by
    have hholds := Nodes.holds_graft ts b.cursor? (Forest.table b.forest)
    rw [← table_attachAll] at hholds
    have hlength := hlt
    rw [table_attachAll, Nodes.length_graft] at hlength
    cases hcursor : b.cursor? with
    | none =>
      obtain ⟨inner, hchain, htop⟩ := Forest.ascends ts _ _ [] hholds
        (fun j hj ↦ .top (hj.trans hcursor)) i hle hlength
      rw [List.append_nil] at hchain
      refine ⟨inner, hchain, fun p hp ↦ ?_, fun _ ↦ htop⟩
      cases hp
    | some p =>
      -- From the node under the cursor it goes up as it did.
      have hp := lt_of_cursor? hcursor
      have hnew : p < (Forest.table (b.attachAll ts).forest).length := by omega
      obtain ⟨above, habove, _⟩ := Forest.ascends_table hnew
      obtain ⟨inner, hchain, _⟩ := Forest.ascends ts _ _ (p :: above) hholds
        (fun j hj ↦ .up (hj.trans hcursor) habove) i hle hlength
      refine ⟨_, hchain, fun q hq ↦ ?_, fun hnone ↦ ?_⟩
      · cases hq
        simp
      · cases hnone

end Builder

/-! ### Symbols -/

namespace Conversion

open Analysis

variable {c : Conversion}

private theorem table_unlessFailed {change : Conversion → Conversion}
    (h : (change c).table = c.table) : (c.unlessFailed change).table = c.table := by
  unfold unlessFailed
  split
  · rfl
  · exact h

private theorem table_fail (e : AnalysisError) (c : Conversion) : (c.fail e).table = c.table :=
  table_unlessFailed rfl

private theorem table_enter (node : Node) (c : Conversion) : (c.enter node).table = c.table :=
  table_unlessFailed rfl

private theorem table_leave (c : Conversion) : c.leave.table = c.table := table_unlessFailed rfl

private theorem table_checkHere (c : Conversion) : c.checkHere.table = c.table := by
  refine table_unlessFailed ?_
  split
  · rfl
  · split
    · rfl
    · exact table_fail _ c

/-- What was declared before one point is declared at another. -/
def KeepsDeclared (c e : Conversion) : Prop := c.table.declared <+: e.table.declared

private theorem KeepsDeclared.of_eq {e : Conversion} (h : e.table.declared = c.table.declared) :
    c.KeepsDeclared e :=
  ⟨[], by rw [List.append_nil, h]⟩

private theorem KeepsDeclared.trans {e f : Conversion} (h : c.KeepsDeclared e)
    (k : e.KeepsDeclared f) :
    c.KeepsDeclared f :=
  List.IsPrefix.trans h k

private theorem keepsDeclared_of_table {e : Conversion} (h : e.table = c.table) :
    c.KeepsDeclared e :=
  .of_eq (congrArg ScopeTable.declared h)

private theorem keepsDeclared_declare (type name : Token) (c : Conversion) :
    c.KeepsDeclared (c.declare type name) := by
  unfold declare
  dsimp only
  split
  · exact keepsDeclared_of_table (table_fail ..)
  · refine KeepsDeclared.trans ?_ (keepsDeclared_of_table (table_leave _))
    exact ⟨_, (ScopeTable.declared_declare ..).symm⟩

private theorem keepsDeclared_declareFrom (children : Forest Node) (c : Conversion) :
    c.KeepsDeclared (c.declareFrom children) := by
  unfold declareFrom
  split
  · exact keepsDeclared_of_table (table_leave c)
  · split
    · exact keepsDeclared_of_table (table_leave c)
    · exact keepsDeclared_declare ..

private theorem keepsDeclared_identify (isTarget : Bool) (name : Token) (c : Conversion) :
    c.KeepsDeclared (c.identify isTarget name) := by
  unfold identify
  split
  · exact keepsDeclared_of_table (table_fail ..)
  · next symbol _ =>
    cases isTarget with
    | false => exact .of_eq (ScopeTable.remarked_markUsed c.table symbol).declared
    | true => exact .of_eq (ScopeTable.remarked_markInitialized c.table symbol).declared

mutual

/-- A conversion only adds to what was declared. -/
theorem keepsDeclared_convert (parent : Option Production) (t : Tree Node) (c : Conversion) :
    c.KeepsDeclared (c.convert parent t) := by
  match t with
  | .node (.leaf _) _ | .node (.literal _ _) _ =>
    rw [convert]
    exact .of_eq rfl
  | .node (.branch p) children =>
    by_cases hfailed : c.error.isSome = true
    · rw [convert_of_failed _ _ hfailed]
      exact .of_eq rfl
    cases p with
    | block =>
      rw [convert, if_neg hfailed]
      have h := keepsDeclared_enter_convertAll (.branch .block) .block children c.openScope
      exact KeepsDeclared.trans h (keepsDeclared_of_table (table_leave _))
    | varDecl =>
      rw [convert, if_neg hfailed]
      exact (keepsDeclared_of_table (table_enter ..)).trans (keepsDeclared_declareFrom children _)
    | assignmentStatement | printStatement =>
      rw [convert, if_neg hfailed]
      exact (keepsDeclared_enter_convertAll _ _ children c).trans
        (keepsDeclared_of_table ((table_leave _).trans (table_checkHere _)))
    | ifStatement | whileStatement =>
      rw [convert, if_neg hfailed]
      exact (keepsDeclared_enter_convertAll _ _ children c).trans
        (keepsDeclared_of_table (table_leave _))
    | stringExpr =>
      rw [convert, if_neg hfailed]
      exact .of_eq rfl
    | intExpr | boolExpr =>
      rw [convert, if_neg hfailed]
      split
      · exact KeepsDeclared.trans (keepsDeclared_enter_convertAll _ _ children (c.say ..))
          (keepsDeclared_of_table ((table_leave _).trans (table_checkHere _)))
      · exact keepsDeclared_convertAll _ children c
    | name =>
      rw [convert, if_neg hfailed]
      split
      · exact keepsDeclared_identify ..
      · exact .of_eq rfl
    | digit | boolVal | typeName =>
      rw [convert, if_neg hfailed]
      split <;> exact .of_eq rfl
    | program | statementList | statement | expr | charList | boolOp | intOp =>
      rw [convert, if_neg hfailed]
      exact keepsDeclared_convertAll _ children (c.say ..)

private theorem keepsDeclared_convertAll (parent : Production) (ts : Forest Node) (c : Conversion) :
    c.KeepsDeclared (c.convertAll parent ts) := by
  match ts with
  | [] =>
    rw [convertAll]
    exact .of_eq rfl
  | t :: ts =>
    rw [convertAll]
    exact (keepsDeclared_convert (some parent) t c).trans (keepsDeclared_convertAll parent ts _)

private theorem keepsDeclared_enter_convertAll (node : Node) (parent : Production)
    (ts : Forest Node) (c : Conversion) : c.KeepsDeclared ((c.enter node).convertAll parent ts) :=
  (keepsDeclared_of_table (table_enter node c)).trans (keepsDeclared_convertAll parent ts _)

end

/-! ### Coming back -/

/-- The nodes made so far. -/
def nodes (c : Conversion) : Nodes Resolved := Forest.table c.builder.forest

/-- One conversion as it goes on from another that it comes back to. -/
structure Restores (c after : Conversion) : Prop where
  cursor : after.builder.cursor? = c.builder.cursor?
  scope : after.scope = c.scope
  nodes : c.nodes.Extends c.builder.cursor? after.nodes
  /-- Each node stands for the symbol it stood for. -/
  bindings : ∀ i < c.nodes.length, ∀ symbol,
    (i, symbol) ∈ Forest.bindings after.builder.forest ↔
      (i, symbol) ∈ Forest.bindings c.builder.forest
  symbols : ∀ (symbol : SymbolId) (s : Symbol), c.table.symbols[symbol]? = some s →
    ∃ s' : Symbol, after.table.symbols[symbol]? = some s' ∧
      s'.name = s.name ∧ s'.type = s.type ∧ s'.scope = s.scope

private theorem KeepsDeclared.symbols {after : Conversion} (h : c.KeepsDeclared after)
    {symbol : SymbolId} {s : Symbol} (hs : c.table.symbols[symbol]? = some s) :
    ∃ s' : Symbol, after.table.symbols[symbol]? = some s' ∧
      s'.name = s.name ∧ s'.type = s.type ∧ s'.scope = s.scope := by
  have hmem := h.subset (ScopeTable.mem_declared.mpr ⟨s, hs, rfl⟩)
  obtain ⟨s', hs', heq⟩ := ScopeTable.mem_declared.mp hmem
  simp only [Symbol.mk.injEq] at heq
  exact ⟨s', hs', heq.1, heq.2.1, heq.2.2.2.1⟩

/-- Trees that are added below the cursor leave all else as it was. -/
theorem restores_grown {trees : Forest Resolved} {s : Progress}
    (h : c.KeepsDeclared (c.grown trees s)) :
    c.Restores (c.grown trees s) where
  cursor := Builder.cursor?_attachAll trees c.builder
  scope := rfl
  nodes := Builder.extends_attachAll trees c.builder
  bindings i hi symbol := by
    obtain ⟨e, he⟩ : ∃ e, (Forest.table c.builder.forest)[i]? = some e :=
      ⟨_, List.getElem?_eq_getElem hi⟩
    obtain ⟨more, hmore, _⟩ := (Builder.extends_attachAll trees c.builder).kept i e he
    rw [Forest.mem_bindings, Forest.mem_bindings, grown, hmore, he]
    rfl
  symbols _ _ hs := h.symbols hs

private theorem scope_convert (parent : Option Production) (t : Tree Node) (c : Conversion) :
    (c.convert parent t).scope = c.scope := by
  cases hc : c.error with
  | none => exact (lowersTo_convert parent t c hc).scope_eq
  | some e => rw [convert_of_failed parent t (by rw [hc]; rfl)]

/-- A conversion that has not failed has added trees below the cursor. -/
theorem restores_convert {parent : Option Production} {t : Tree Node}
    (h : (c.convert parent t).error = none) : c.Restores (c.convert parent t) := by
  have hkeeps := keepsDeclared_convert parent t c
  cases hc : c.error with
  | some e =>
    rw [convert_of_failed parent t (by rw [hc]; rfl), hc] at h
    cases h
  | none =>
    have hlowers := lowersTo_convert parent t c hc
    generalize (lower c.scope parent t).run c.progress = result at hlowers
    generalize c.convert parent t = after at h hkeeps hlowers ⊢
    cases hlowers with
    | ok trees s => exact restores_grown hkeeps
    | error e s builder => cases h

/-- A conversion of any tree comes back to where it started, in the tree and among the scopes,
unless it fails. If it fails it is in the scope where it was, and does not go on. -/
theorem convert_restores (parent : Option Production) (t : Tree Node) (c : Conversion) :
    ((c.convert parent t).error = none → c.Restores (c.convert parent t)) ∧
      ((c.convert parent t).error ≠ none → (c.convert parent t).scope = c.scope ∧
        ∀ parent' t', (c.convert parent t).convert parent' t' = c.convert parent t) ∧
      (c.error = none → c.LowersTo ((lower c.scope parent t).run c.progress) (c.convert parent t)) ∧
      ∀ others, analyze (t :: others) = (start.convert none t).report := by
  refine ⟨restores_convert, fun h ↦ ⟨scope_convert parent t c, fun parent' t' ↦ ?_⟩,
    lowersTo_convert parent t c, analyze_eq t⟩
  exact convert_of_failed parent' t' (Option.isSome_iff_ne_none.mpr h)

end Conversion

end OnePage
