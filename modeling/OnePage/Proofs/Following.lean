import OnePage.Proofs.Frames
import OnePage.Proofs.Lowering
import OnePage.Proofs.Shape

/-!
# Steps that follow a computation

A step of an analysis follows a computation without state if it fails with the same error, and gives
a related result if the computation gives one. Steps that follow computations can be put together,
and so can the steps that lower a tree.
-/

namespace OnePage

mutual

/-- The type of a tree depends only on the types of symbols. -/
theorem Tree.type_congr {table next : ScopeTable} (h : next.typeOf = table.typeOf) :
    ∀ t : Tree Resolved, t.type next = t.type table
  | .node r [] => by
    rw [Tree.type, Tree.type]
    simp only [Resolved.leafType, h]
  | .node r (t :: ts) => by
    rw [Tree.type, Tree.type, Tree.type_congr h t]
    simp only [Forest.haveType_congr h ts]

private theorem Forest.haveType_congr {table next : ScopeTable} (h : next.typeOf = table.typeOf) :
    ∀ (ts : Forest Resolved) {expected : VarType},
      Forest.haveType next expected ts = Forest.haveType table expected ts
  | [], _ => rfl
  | t :: ts, expected => by
    rw [Forest.haveType, Forest.haveType, Tree.type_congr h t]
    simp only [Forest.haveType_congr h ts]

end

namespace Analysis

open ScopeTable Checker

/-- The step gives the result and leaves the other table, whatever was said before. -/
def Returns {α : Type} (step : Step α) (table : ScopeTable) (a : α) (next : ScopeTable) : Prop :=
  ∀ events, ∃ later, step.run { table, events } = .ok a { table := next, events := later }

/-- The step fails with the error, whatever was said before. -/
def Fails {α : Type} (step : Step α) (table : ScopeTable) (e : AnalysisError) : Prop :=
  ∀ events, ∃ s, step.run { table, events } = .error e s

/-- The step fails as the computation does, or gives a related result. -/
def Follows {α β : Type} (r : Except AnalysisError β) (step : Step α) (table : ScopeTable)
    (related : β → α → ScopeTable → Prop) : Prop :=
  match r with
  | .ok b => ∃ a next, Returns step table a next ∧ related b a next
  | .error e => Fails step table e

section Steps

variable {α β γ δ : Type} {table mid next : ScopeTable}

/-- A step that does nothing returns its value and keeps the table. -/
theorem returns_pure (a : α) : Returns (pure a) table a table := fun events ↦ ⟨events, rfl⟩

/-- Saying something keeps the table. -/
theorem returns_say {severity : Severity} {profile : Profile} {text : String} :
    Returns (say severity profile text) table () table := fun _ ↦ ⟨_, rfl⟩

/-- A change of the table returns as the change does. -/
theorem returns_onTable (change : ScopeTable → α × ScopeTable) :
    Returns (onTable change) table (change table).1 (change table).2 := fun _ ↦ ⟨_, rfl⟩

/-- Looking at the table returns it and keeps it. -/
theorem returns_tableNow : Returns tableNow table table table := fun _ ↦ ⟨_, rfl⟩

private theorem fails_throw (e : AnalysisError) :
    Fails (throw e : Step α) table e := fun _ ↦ ⟨_, rfl⟩

/-- Two steps one after the other return what the second does on the table that the first leaves. -/
theorem Returns.bind {x : Step α} {f : α → Step β} {a : α} {b : β} (hx : Returns x table a mid)
    (hf : Returns (f a) mid b next) : Returns (x >>= f) table b next := by
  intro events
  obtain ⟨said, hx⟩ := hx events
  obtain ⟨later, hf⟩ := hf said
  exact ⟨later, run_bind_eq_ok.mpr ⟨a, _, hx, hf⟩⟩

private theorem Returns.bind_fails {x : Step α} {f : α → Step β} {a : α} {e : AnalysisError}
    (hx : Returns x table a mid) (hf : Fails (f a) mid e) : Fails (x >>= f) table e := by
  intro events
  obtain ⟨said, hx⟩ := hx events
  obtain ⟨s, hf⟩ := hf said
  exact ⟨s, run_bind_eq_error.mpr (.inr ⟨a, _, hx, hf⟩)⟩

private theorem Fails.bind {x : Step α} {f : α → Step β} {e : AnalysisError} (h : Fails x table e) :
    Fails (x >>= f) table e := by
  intro events
  obtain ⟨s, hx⟩ := h events
  exact ⟨s, run_bind_eq_error.mpr (.inl hx)⟩

variable {r : Except AnalysisError β} {related : β → α → ScopeTable → Prop}

/-- A value that is related to a result follows it. -/
theorem follows_pure {a : α} {b : β} (h : related b a table) :
    Follows (.ok b) (pure a) table related :=
  ⟨a, table, returns_pure a, h⟩

/-- An error follows itself. -/
theorem follows_throw (e : AnalysisError) : Follows (.error e) (throw e) table related :=
  fails_throw e

/-- A step that gives a result may stand before one that follows. -/
theorem Returns.follows {x : Step γ} {f : γ → Step α} {c : γ} (hx : Returns x table c mid)
    (hf : Follows r (f c) mid related) : Follows r (x >>= f) table related := by
  cases r with
  | error e => exact hx.bind_fails hf
  | ok b =>
    obtain ⟨a, next, hf, hrelated⟩ := hf
    exact ⟨a, next, hx.bind hf, hrelated⟩

/-- What follows one computation and then another follows both. -/
theorem Follows.bind {x : Step α} {k : β → Except AnalysisError γ} {f : α → Step δ}
    {later : γ → δ → ScopeTable → Prop} (hx : Follows r x table related)
    (hf : ∀ b a mid, related b a mid → Follows (k b) (f a) mid later) :
    Follows (r >>= k) (x >>= f) table later := by
  cases r with
  | error e => exact hx.bind
  | ok b =>
    obtain ⟨a, mid, hx, hrelated⟩ := hx
    exact hx.follows (hf b a mid hrelated)

/-- Results that are related are related by what follows from that. -/
theorem Follows.mono {x : Step α} {other : β → α → ScopeTable → Prop}
    (h : Follows r x table related) (k : ∀ b a next, related b a next → other b a next) :
    Follows r x table other := by
  cases r with
  | error e => exact h
  | ok b =>
    obtain ⟨a, next, hx, hrelated⟩ := h
    exact ⟨a, next, hx, k b a next hrelated⟩

/-- Giving something else after a step keeps it following. -/
theorem Follows.map {x : Step α} {g : α → δ} {later : β → δ → ScopeTable → Prop}
    (h : Follows r x table fun b a next ↦ later b (g a) next) :
    Follows r (x >>= fun a ↦ pure (g a)) table later := by
  cases r with
  | error e => exact Fails.bind h
  | ok b =>
    obtain ⟨a, next, hx, hrelated⟩ := h
    exact ⟨g a, next, hx.bind (returns_pure _), hrelated⟩

/-- Giving something else after a computation keeps it followed. -/
theorem Follows.give {x : Step α} {g : β → γ} {later : γ → α → ScopeTable → Prop}
    (h : Follows r x table fun b ↦ later (g b)) :
    Follows (r >>= fun b ↦ pure (g b)) x table later := by
  cases r with
  | error e => exact h
  | ok b => exact h

end Steps

section Checks

variable {β : Type} {r : Except AnalysisError β} {table : ScopeTable}

/-- A node is made over the children that a step gives. -/
theorem Follows.branch {node : Node} {children : Step (Forest Resolved)}
    {related : β → Forest Resolved → ScopeTable → Prop} (h : Follows r children table related) :
    Follows r (branch node children) table fun b t next ↦
      ∃ trees, t = .node { node } trees ∧ related b trees next :=
  returns_say.follows (h.mono fun _ trees _ hrelated ↦ ⟨trees, rfl, hrelated⟩).map

/-- The check of a tree that has a type keeps the table. -/
theorem returns_check {t : Tree Resolved} {type : VarType} (h : t.type table = .ok type) :
    Returns (check t) table () table := by
  refine returns_tableNow.bind ?_
  rw [h]
  exact returns_say

/-- A node over two operands of one type has the type that its label gives it. -/
theorem type_pair {label : Resolved} {left right : Tree Resolved} {type : VarType}
    (hl : left.type table = .ok type) (hr : right.type table = .ok type) :
    Tree.type table (.node label [left, right]) = .ok (label.branchType type) := by
  simp [Tree.type, Forest.haveType, hl, hr, bind, Except.bind, pure, Except.pure]

/-- Checking two operands compares their types. -/
theorem follows_check {label : Resolved} {left right : Tree Resolved} {expected found : VarType}
    {place : Position} (hl : left.type table = .ok expected) (hr : right.type table = .ok found)
    (hplace : right.label.node.position? = some place) :
    Follows (agree expected found place) (check (.node label [left, right])) table
      fun _ _ next ↦ next = table ∧ found = expected := by
  unfold agree
  split
  · next he =>
    subst he
    exact ⟨(), table, returns_check (type_pair hl hr), rfl, rfl⟩
  · next he =>
    have htype : Tree.type table (.node label [left, right]) =
        .error (.typeMismatch expected found place) := by
      simp [Tree.type, Forest.haveType, hl, hr, he, hplace, bind, Except.bind, throw, throwThe,
        MonadExceptOf.throw]
    refine returns_tableNow.bind_fails ?_
    rw [htype]
    exact fails_throw _

end Checks

section Trees

variable {β γ : Type} {r : Except AnalysisError β} {k : β → Except AnalysisError γ}
  {related : β → Forest Resolved → ScopeTable → Prop}
  {later : γ → Forest Resolved → ScopeTable → Prop} {scope : ScopeId} {parent : Option Production}
  {p : Production} {t : Tree Node} {ts : Forest Node} {table mid : ScopeTable}

/-- A token is lowered to nothing and keeps the table. -/
theorem returns_leaf (m : Mark) (kind : Kind) :
    Returns (lower scope parent (m.leaf kind)) table [] table := by
  rw [Mark.leaf, Tree.leaf, lower]
  exact returns_pure []

/-- A digit, truth value or type is lowered to a leaf with its token. -/
theorem returns_wrapped (m : Mark) (kind : Kind) (hp : p = .digit ∨ p = .boolVal ∨ p = .typeName) :
    Returns (lower scope parent (m.wrapped p kind)) table
      [.leaf { node := .leaf (m.token kind) }] table := by
  rcases hp with rfl | rfl | rfl <;>
  · rw [Mark.wrapped, lower]
    exact returns_pure _

private theorem returns_nil : Returns (lowerAll scope p []) table [] table := by
  rw [lowerAll]
  exact returns_pure []

/-- Tokens are lowered to nothing and keep the table. -/
theorem returns_leaves (ms : List Mark) (kind : Kind) :
    Returns (lowerAll scope p (ms.map (·.leaf kind))) table [] table := by
  induction ms with
  | nil => exact returns_nil
  | cons m ms ih =>
    rw [List.map_cons, lowerAll]
    exact (returns_leaf m kind).bind (ih.bind (returns_pure _))

/-- A tree that is lowered without fail may stand before others. -/
theorem Returns.follows_cons {first : Forest Resolved}
    (h : Returns (lower scope (some p) t) table first mid)
    (hts : Follows r (lowerAll scope p ts) mid fun b others ↦ related b (first ++ others)) :
    Follows r (lowerAll scope p (t :: ts)) table related := by
  rw [lowerAll]
  exact h.follows hts.map

/-- Trees are lowered as a computation says if the first of them is, and the others after it. -/
theorem Follows.cons (h : Follows r (lower scope (some p) t) table related)
    (hts : ∀ b first mid, related b first mid →
      Follows (k b) (lowerAll scope p ts) mid fun c others ↦ later c (first ++ others)) :
    Follows (r >>= k) (lowerAll scope p (t :: ts)) table later := by
  rw [lowerAll]
  exact h.bind fun b first mid hrelated ↦ (hts b first mid hrelated).map

/-- Trees of which nothing stays may stand after one that follows. -/
theorem Follows.alone (h : Follows r (lower scope (some p) t) table related)
    (hts : ∀ mid, Returns (lowerAll scope p ts) mid [] mid) :
    Follows r (lowerAll scope p (t :: ts)) table related := by
  rw [← bind_pure r]
  exact h.cons fun b first mid hrelated ↦ ⟨[], mid, hts mid, by simpa using hrelated⟩

/-- A list of one tree is lowered as the tree is. -/
theorem Follows.single (h : Follows r (lower scope (some p) t) table related) :
    Follows r (lowerAll scope p [t]) table related :=
  h.alone fun _ ↦ returns_nil

/-- Nonterminals that only group others leave no node. -/
theorem follows_through (hp : p = .program ∨ p = .statementList ∨ p = .statement ∨ p = .expr ∨
      p = .boolOp ∨ p = .intOp) (h : Follows r (lowerAll scope p ts) table related) :
    Follows r (lower scope parent (.node (.branch p) ts)) table related := by
  rcases hp with rfl | rfl | rfl | rfl | rfl | rfl <;>
  · rw [lower]
    exact returns_say.follows h

/-- An operator is lowered to nothing: it becomes the label above it. -/
theorem returns_operator (m : Mark) (kind : Kind) (hp : p = .boolOp ∨ p = .intOp) :
    Returns (lower scope parent (m.wrapped p kind)) table [] table := by
  rcases hp with rfl | rfl <;>
  · rw [Mark.wrapped, lower]
    exact returns_say.bind (returns_leaves [m] kind)

/-- A grouping of operands without an operator leaves no node. -/
theorem follows_value (hp : p = .intExpr ∨ p = .boolExpr) (hop : operator? ts = none)
    (h : Follows r (lowerAll scope p ts) table related) :
    Follows r (lower scope parent (.node (.branch p) ts)) table related := by
  rcases hp with rfl | rfl <;>
  · rw [lower]
    simp only [hop]
    exact h

/-- An operator is checked once its operands are lowered below it. -/
theorem follows_operation {operator : Token} (hp : p = .intExpr ∨ p = .boolExpr)
    (hop : operator? ts = some operator) (h : Follows r (lowerAll scope p ts) table related)
    (hcheck : ∀ b operands mid, related b operands mid →
      Follows (k b) (check (.node { node := .leaf operator } operands)) mid fun c _ ↦
        later c [.node { node := .leaf operator } operands]) :
    Follows (r >>= k) (lower scope parent (.node (.branch p) ts)) table later := by
  rcases hp with rfl | rfl <;>
  · rw [lower]
    simp only [hop]
    refine returns_say.follows (h.branch.bind ?_)
    rintro b _ mid ⟨operands, rfl, hrelated⟩
    exact (hcheck b operands mid hrelated).map

/-- A statement is checked once its parts are lowered. -/
theorem follows_checked (hp : p = .assignmentStatement ∨ p = .printStatement)
    (h : Follows r (lowerAll scope p ts) table related)
    (hcheck : ∀ b parts mid, related b parts mid →
      Follows (k b) (check (.node { node := .branch p } parts)) mid fun c _ ↦
        later c [.node { node := .branch p } parts]) :
    Follows (r >>= k) (lower scope parent (.node (.branch p) ts)) table later := by
  rcases hp with rfl | rfl <;>
  · rw [lower]
    refine h.branch.bind ?_
    rintro b _ mid ⟨parts, rfl, hrelated⟩
    exact (hcheck b parts mid hrelated).map

/-- A conditional statement and a loop keep their parts as they are lowered. -/
theorem follows_guarded (hp : p = .ifStatement ∨ p = .whileStatement)
    (h : Follows r (lowerAll scope p ts) table related) :
    Follows r (lower scope parent (.node (.branch p) ts)) table fun b trees next ↦
      ∃ parts, trees = [.node { node := .branch p } parts] ∧ related b parts next := by
  rcases hp with rfl | rfl <;>
  · rw [lower]
    refine Follows.map (h.branch.mono ?_)
    rintro b _ next ⟨parts, rfl, hrelated⟩
    exact ⟨parts, rfl, hrelated⟩

end Trees

end Analysis

end OnePage
