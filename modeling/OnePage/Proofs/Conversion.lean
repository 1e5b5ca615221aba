import OnePage.Analysis
import OnePage.Proofs.Descent
import OnePage.Proofs.Layout

/-!
# Analysis under a cursor

A conversion builds the resolved tree node by node under a cursor, in a scope that it changes when
it comes to a block and when it leaves it. Its first error stays: from then on it still goes back up
through every step, but no step changes anything but the scope. A conversion of a tree adds the
trees that lowering gives, says the same, and ends with the same table or the same error.
-/

namespace OnePage

/-- The state of a conversion. -/
structure Conversion where
  builder : Builder Resolved := {}
  table : ScopeTable
  /-- The scope that names are looked up in. -/
  scope : ScopeId
  /-- The first error. -/
  error : Option AnalysisError := none
  /-- What was said. -/
  events : Array Event

namespace Conversion

open Analysis

/-! ### Steps -/

/-- Change a conversion unless it has an error. -/
def unlessFailed (change : Conversion → Conversion) (c : Conversion) : Conversion :=
  if c.error.isSome then c else change c

/-- Say something. -/
def say (severity : Severity) (profile : Profile) (text : String) (c : Conversion) : Conversion :=
  { c with events := c.events.push { phase := .semantic, severity, profile, text } }

/-- Fail. -/
def fail (e : AnalysisError) : Conversion → Conversion := unlessFailed fun c ↦
  { c with error := some e, events := c.events.push (errorEvent e) }

/-- Make a node and go below it. -/
def enter (node : Node) : Conversion → Conversion := unlessFailed fun c ↦
  { c.say .found .everything ("creating branch node '" ++ node.text ++ "'") with
    builder := c.builder.addBranch { node } }

/-- Go back up to the node above. -/
def leave : Conversion → Conversion := unlessFailed fun c ↦ { c with builder := c.builder.climb }

/-- Add a node without going below it. -/
def addLeaf (r : Resolved) (c : Conversion) : Conversion :=
  { c with builder := c.builder.addLeaf r }

/-- Open a scope and go into it. -/
def openScope (c : Conversion) : Conversion :=
  { c with scope := (c.table.adopt c.scope).1, table := (c.table.adopt c.scope).2 }

/-- Check the types in the tree under the cursor. -/
def checkHere : Conversion → Conversion := unlessFailed fun c ↦
  match c.builder.spine with
  | [] => c
  | n :: _ =>
    match n.close.type c.table with
    | .ok type => c.say .found .verbose ("type checks out, result is '" ++ type.text ++ "'")
    | .error e => c.fail e

/-- Convert a declaration, whose name is bound if it is new in the scope. -/
def declare (type name : Token) (c : Conversion) : Conversion :=
  let typed := c.addLeaf { node := .leaf type }
  match c.table.lookupLocal? c.scope name.lexeme with
  | some existing =>
    let line := (c.table.symbols[existing]?.map (·.token.position.line)).getD 0
    (typed.addLeaf { node := .leaf name }).fail
      (.duplicateDeclaration name.lexeme name.position line)
  | none =>
    let said := typed.say .message .verbose
      ("adding symbol '" ++ type.lexeme ++ " " ++ name.lexeme ++ "' to the symbol table")
    let (symbol, table) := c.table.declare c.scope (.ofKeyword type.lexeme) name
    addLeaf { node := .leaf name, symbol := some symbol } { said with table } |>.leave

/-- Convert the children of a declaration, which may have no type or no name. -/
def declareFrom (children : Forest Node) (c : Conversion) : Conversion :=
  match lastTerminal? .typeName children with
  | none => c.leave
  | some type =>
    match lastTerminal? .name children with
    | none => c.leave
    | some name => c.declare type name

/-- Convert an identifier, which is the target of an assignment or a value. -/
def identify (isTarget : Bool) (name : Token) (c : Conversion) : Conversion :=
  match c.table.lookup? c.scope name.lexeme with
  | none => c.fail (.unresolvedIdentifier name.lexeme name.position)
  | some symbol =>
    let table :=
      if isTarget then c.table.markInitialized symbol else c.table.markUsed symbol
    addLeaf { node := .leaf name, symbol := some symbol } { c with table }

mutual

/-- Convert a tree that stands below a node of the given nonterminal. -/
def convert (parent : Option Production) : Tree Node → Conversion → Conversion
  | .node (.branch p) children, c =>
    if c.error.isSome then c else
      match p with
      | .program | .statementList | .statement | .expr | .charList | .boolOp | .intOp =>
        convertAll p children
          (c.say .chatter .everything ("nothing to keep at '" ++ p.text ++ "', recursing"))
      | .block =>
        { (convertAll p children (c.openScope.enter (.branch p))).leave with scope := c.scope }
      | .varDecl => (c.enter (.branch p)).declareFrom children
      | .assignmentStatement | .printStatement =>
        (convertAll p children (c.enter (.branch p))).checkHere.leave
      | .ifStatement | .whileStatement => (convertAll p children (c.enter (.branch p))).leave
      | .stringExpr =>
        let (text, position) := textOf (Forest.labels children)
        let said := c.say .message .verbose
          ("collapsing characters to form string \"" ++ text ++ "\"")
        said.addLeaf { node := .literal text position }
      | .intExpr | .boolExpr =>
        match operator? children with
        | some operator =>
          let said := c.say .message .verbose
            ("found operator '" ++ operator.lexeme ++ "', rotating it into a branch")
          (convertAll p children (said.enter (.leaf operator))).checkHere.leave
        | none => convertAll p children c
      | .name =>
        match Tree.terminal? (.node (.branch p) children) with
        | some token => c.identify (parent == some .assignmentStatement) token
        | none => c
      | .digit | .boolVal | .typeName =>
        match Tree.terminal? (.node (.branch p) children) with
        | some token => c.addLeaf { node := .leaf token }
        | none => c
  | .node (.leaf _) _, c | .node (.literal _ _) _, c => c

/-- Convert trees that stand below a node of the given nonterminal, one after the other. -/
def convertAll (parent : Production) : Forest Node → Conversion → Conversion
  | [], c => c
  | t :: ts, c => convertAll parent ts (convert (some parent) t c)

end

/-! ### Where a conversion comes to -/

/-- The table and the events of a conversion. -/
def progress (c : Conversion) : Progress := { table := c.table, events := c.events }

/-- The conversion after some trees have been added. -/
def grown (trees : Forest Resolved) (s : Progress) (c : Conversion) : Conversion :=
  { c with builder := c.builder.attachAll trees, table := s.table, events := s.events }

/-- What a conversion comes to if lowering has the given result. Either way it is in the scope where
it was. -/
inductive LowersTo (c : Conversion) :
    EStateM.Result AnalysisError Progress (Forest Resolved) → Conversion → Prop where
  | ok (trees : Forest Resolved) (s : Progress) : LowersTo c (.ok trees s) (c.grown trees s)
  | error (e : AnalysisError) (s : Progress) (builder : Builder Resolved) :
    LowersTo c (.error e s) { c with
      builder
      table := s.table
      error := some e
      events := s.events.push (errorEvent e) }

variable {c : Conversion}

private theorem unlessFailed_of_failed {change : Conversion → Conversion}
    (h : c.error.isSome = true) :
    c.unlessFailed change = c := if_pos h

private theorem unlessFailed_of_none {change : Conversion → Conversion} (h : c.error = none) :
    c.unlessFailed change = change c := by
  rw [unlessFailed, h]
  rfl

private theorem fail_of_none {e : AnalysisError} (h : c.error = none) :
    c.fail e = { c with error := some e, events := c.events.push (errorEvent e) } :=
  unlessFailed_of_none h

private theorem enter_of_none {node : Node} (h : c.error = none) :
    c.enter node = { c.say .found .everything ("creating branch node '" ++ node.text ++ "'") with
      builder := c.builder.addBranch { node } } :=
  unlessFailed_of_none h

private theorem error_enter (node : Node) (c : Conversion) : (c.enter node).error = c.error := by
  unfold enter unlessFailed
  split <;> rfl

private theorem scope_enter (node : Node) (c : Conversion) : (c.enter node).scope = c.scope := by
  unfold enter unlessFailed
  split <;> rfl

private theorem grown_grown (xs ys : Forest Resolved) (s t : Progress) (c : Conversion) :
    (c.grown xs s).grown ys t = c.grown (xs ++ ys) t := by
  simp [grown, Builder.attachAll_append]

namespace LowersTo

variable {e f : Conversion} {xs ys : Forest Resolved} {s t : Progress} {error : AnalysisError}

private theorem nothing (c : Conversion) : LowersTo c (.ok [] c.progress) c := .ok [] c.progress

private theorem leaf (r : Resolved) (c : Conversion) :
    LowersTo c (.ok [.leaf r] c.progress) (c.addLeaf r) :=
  .ok [.leaf r] c.progress

/-- A conversion ends in the scope in which it began. -/
theorem scope_eq {result : EStateM.Result AnalysisError Progress (Forest Resolved)}
    (h : LowersTo c result e) : e.scope = c.scope := by
  cases h <;> rfl

/-- A conversion whose lowering has not failed goes on from there. -/
theorem live (h : LowersTo c (.ok xs s) e) (hc : c.error = none) :
    e.error = none ∧ e.progress = s := by
  cases h
  exact ⟨hc, rfl⟩

private theorem failed (h : LowersTo c (.error error s) e) : e.error.isSome = true := by
  cases h
  rfl

/-- Trees are added one part after the other. -/
theorem append (h : LowersTo c (.ok xs s) e) (k : LowersTo e (.ok ys t) f) :
    LowersTo c (.ok (xs ++ ys) t) f := by
  cases h
  cases k
  rw [grown_grown]
  exact .ok ..

private theorem append_error (h : LowersTo c (.ok xs s) e) (k : LowersTo e (.error error t) f) :
    LowersTo c (.error error t) f := by
  cases h
  cases k
  exact .error ..

private theorem thenSay {severity : Severity} {profile : Profile} {text : String}
    (h : LowersTo c (.ok xs s) e) :
    LowersTo c (.ok xs { s with
      events := s.events.push { phase := .semantic, severity, profile, text } })
      (e.say severity profile text) := by
  cases h
  exact .ok ..

/-- What is lowered second is added after what is lowered first, unless that fails. -/
theorem andThen {first second : Step (Forest Resolved)} (h : LowersTo c (first.run c.progress) e)
    (hc : c.error = none) (hnext : e.error = none → LowersTo e (second.run e.progress) f)
    (hstop : e.error.isSome = true → f = e) :
    LowersTo c ((first >>= fun xs ↦ second >>= fun ys ↦ pure (xs ++ ys)).run c.progress) f := by
  rw [EStateM.run_bind]
  cases hfirst : first.run c.progress with
  | error error s =>
    rw [hfirst] at h
    rw [hstop h.failed]
    exact h
  | ok xs s =>
    rw [hfirst] at h
    -- What comes second starts from where the first has come to.
    obtain ⟨he, rfl⟩ := h.live hc
    have k := hnext he
    dsimp only
    rw [EStateM.run_bind]
    cases hsecond : second.run e.progress with
    | error error t => exact h.append_error (hsecond ▸ k)
    | ok ys t => exact h.append (hsecond ▸ k)

/-- The events of a conversion are no part of where it comes to. -/
theorem of_say {severity : Severity} {profile : Profile} {text : String}
    {result : EStateM.Result AnalysisError Progress (Forest Resolved)}
    (h : LowersTo (c.say severity profile text) result e) : LowersTo c result e := by
  cases h with
  | ok trees s => exact .ok trees s
  | error e s builder => exact .error e s builder

/-- What is done in a scope that was opened is done, and the scope is left again. -/
theorem of_openScope {result : EStateM.Result AnalysisError Progress (Forest Resolved)}
    (h : LowersTo c.openScope result e) : LowersTo c result { e with scope := c.scope } := by
  cases h with
  | ok trees s => exact .ok trees s
  | error e s builder => exact .error e s builder

end LowersTo

/-! ### Nodes -/

section Nodes

variable {node : Node} {children : Step (Forest Resolved)} {f : Conversion}
  {trees : Forest Resolved} {s : Progress} {e : AnalysisError}

private theorem run_branch_ok (hc : c.error = none)
    (h : children.run (c.enter node).progress = .ok trees s) :
    (branch node children).run c.progress = .ok (.node { node } trees) s := by
  rw [enter_of_none hc] at h
  exact run_bind_eq_ok.mpr ⟨(), _, rfl, run_bind_eq_ok.mpr ⟨trees, s, h, rfl⟩⟩

private theorem run_branch_error (hc : c.error = none)
    (h : children.run (c.enter node).progress = .error e s) :
    (branch node children).run c.progress = .error e s := by
  rw [enter_of_none hc] at h
  exact run_bind_eq_error.mpr (.inr ⟨(), _, rfl, run_bind_eq_error.mpr (.inl h)⟩)

/-- What is added after a node is made is below the node. -/
theorem LowersTo.entered (hc : c.error = none) (h : LowersTo (c.enter node) (.ok trees s) f) :
    f = { c with
      builder := (c.builder.addBranch { node }).attachAll trees
      table := s.table
      events := s.events } := by
  rw [enter_of_none hc] at h
  cases h
  rfl

/-- A node that is made and left again is a tree added. -/
theorem LowersTo.leave_entered (hc : c.error = none) (h : LowersTo (c.enter node) (.ok trees s) f) :
    f.leave = c.grown [.node { node } trees] s := by
  rw [h.entered hc, leave, unlessFailed_of_none (by exact hc), grown]
  simp only [Builder.climb_attachAll_addBranch, Builder.attachAll_singleton]

/-- A failure below a node is not left. -/
theorem LowersTo.of_entered (hc : c.error = none) (h : LowersTo (c.enter node) (.error e s) f) :
    LowersTo c (.error e s) f := by
  rw [enter_of_none hc] at h
  cases h
  exact .error ..

/-- What is added below a node is its children, once the node is left again. -/
theorem LowersTo.branch (hc : c.error = none)
    (h : LowersTo (c.enter node) (children.run (c.enter node).progress) f) :
    LowersTo c ((Analysis.branch node children >>= fun t ↦ pure [t]).run c.progress) f.leave := by
  cases hrun : children.run (c.enter node).progress with
  | error e s =>
    rw [hrun] at h
    rw [EStateM.run_bind, run_branch_error hc hrun, leave, unlessFailed_of_failed h.failed]
    exact h.of_entered hc
  | ok trees s =>
    rw [hrun] at h
    rw [EStateM.run_bind, run_branch_ok hc hrun, h.leave_entered hc]
    exact .ok ..

/-- The check of a tree looks at what is below the cursor. -/
theorem LowersTo.checkHere_entered (hc : c.error = none)
    (h : LowersTo (c.enter node) (.ok trees s) f) :
    f.checkHere = match Tree.type s.table (.node { node } trees) with
      | .error e => f.fail e
      | .ok type => f.say .found .verbose ("type checks out, result is '" ++ type.text ++ "'") := by
  have hnone := (h.live ((error_enter node c).trans hc)).1
  have hspine : f.builder.spine = ⟨{ node }, trees⟩ :: c.builder.spine := by
    rw [h.entered hc]
    exact congrArg Builder.spine
      (Builder.attachAll_open trees c.builder.complete ⟨{ node }, []⟩ c.builder.spine)
  have htable : f.table = s.table := by rw [h.entered hc]
  rw [checkHere, unlessFailed_of_none hnone, hspine]
  dsimp only [OpenNode.close]
  rw [htable]
  cases Tree.type s.table (.node { node } trees) <;> rfl

private theorem run_check_ok {t : Tree Resolved} {type : VarType} (h : t.type s.table = .ok type) :
    (check t).run s = .ok () { s with
      events := s.events.push {
        phase := .semantic
        severity := .found
        profile := .verbose
        text := "type checks out, result is '" ++ type.text ++ "'" } } := by
  refine run_bind_eq_ok.mpr ⟨s.table, s, rfl, ?_⟩
  rw [h]
  rfl

private theorem run_check_error {t : Tree Resolved} (h : t.type s.table = .error e) :
    (check t).run s = .error e s := by
  refine run_bind_eq_error.mpr (.inr ⟨s.table, s, rfl, ?_⟩)
  rw [h]
  rfl

/-- The node is checked before it is left. -/
theorem LowersTo.checked (hc : c.error = none)
    (h : LowersTo (c.enter node) (children.run (c.enter node).progress) f) :
    LowersTo c ((Analysis.branch node children >>= fun t ↦
      check t >>= fun _ ↦ pure [t]).run c.progress) f.checkHere.leave := by
  cases hrun : children.run (c.enter node).progress with
  | error e s =>
    rw [hrun] at h
    rw [EStateM.run_bind, run_branch_error hc hrun, checkHere, unlessFailed_of_failed h.failed,
      leave, unlessFailed_of_failed h.failed]
    exact h.of_entered hc
  | ok trees s =>
    rw [hrun] at h
    rw [EStateM.run_bind, run_branch_ok hc hrun, h.checkHere_entered hc]
    have hlive := h.live ((error_enter node c).trans hc)
    cases htype : Tree.type s.table (.node { node } trees) with
    | error e =>
      -- The cursor stays below the node that has the error.
      have hfail := fail_of_none (e := e) hlive.1
      dsimp only
      rw [EStateM.run_bind, run_check_error htype, leave,
        unlessFailed_of_failed (by rw [hfail]; rfl), hfail, h.entered hc]
      exact .error ..
    | ok type =>
      dsimp only
      rw [EStateM.run_bind, run_check_ok htype, h.thenSay.leave_entered hc]
      exact .ok ..

end Nodes

/-! ### Names -/

section Names

variable {children : Forest Node} {type name : Token}

/-- The error of a declaration whose name is known. -/
def duplicate (name : Token) (existing : SymbolId) (c : Conversion) : AnalysisError :=
  .duplicateDeclaration name.lexeme name.position
    ((c.table.symbols[existing]?.map (·.token.position.line)).getD 0)

private theorem lowersTo_declare_known {existing : SymbolId} (hc : c.error = none)
    (htype : lastTerminal? .typeName children = some type)
    (hname : lastTerminal? .name children = some name)
    (hknown : c.table.lookupLocal? c.scope name.lexeme = some existing) :
    LowersTo c ((declaration c.scope children).run c.progress) (c.declare type name) := by
  have hrun : (declaration c.scope children).run c.progress =
      .error (duplicate name existing c) c.progress := by
    rw [declaration, htype, hname]
    refine run_bind_eq_error.mpr (.inr ⟨c.table, c.progress, rfl, ?_⟩)
    rw [hknown]
    rfl
  rw [hrun, declare, hknown]
  dsimp only
  rw [fail_of_none (by exact hc)]
  exact .error ..

private theorem lowersTo_declare_new (htype : lastTerminal? .typeName children = some type)
    (hname : lastTerminal? .name children = some name)
    (hnew : c.table.lookupLocal? c.scope name.lexeme = none) :
    ∃ f, LowersTo c ((declaration c.scope children).run c.progress) f ∧
      c.declare type name = f.leave := by
  have hrun : (declaration c.scope children).run c.progress =
      .ok [.leaf { node := .leaf type }, .leaf {
          node := .leaf name
          symbol := some (c.table.declare c.scope (.ofKeyword type.lexeme) name).1 }]
        { table := (c.table.declare c.scope (.ofKeyword type.lexeme) name).2
          events := (c.say .message .verbose
            ("adding symbol '" ++ type.lexeme ++ " " ++ name.lexeme ++
              "' to the symbol table")).events } := by
    rw [declaration, htype, hname]
    refine run_bind_eq_ok.mpr ⟨c.table, c.progress, rfl, ?_⟩
    rw [hnew]
    rfl
  refine ⟨_, ?_, by rw [declare, hnew]⟩
  rw [hrun]
  exact .ok ..

/-- A declaration adds its type and its name if it has both, and is left unless it fails. -/
theorem lowersTo_declareFrom (children : Forest Node) (hc : c.error = none) :
    ∃ f, LowersTo c ((declaration c.scope children).run c.progress) f ∧
      c.declareFrom children = f.leave := by
  cases htype : lastTerminal? .typeName children with
  | none =>
    refine ⟨c, ?_, by rw [declareFrom, htype]⟩
    rw [declaration, htype]
    exact .nothing c
  | some type =>
    cases hname : lastTerminal? .name children with
    | none =>
      refine ⟨c, ?_, by rw [declareFrom, htype, hname]⟩
      rw [declaration, htype, hname]
      exact .nothing c
    | some name =>
      rw [declareFrom, htype, hname]
      cases hknown : c.table.lookupLocal? c.scope name.lexeme with
      | none => exact lowersTo_declare_new htype hname hknown
      | some existing =>
        have h := lowersTo_declare_known hc htype hname hknown
        have hfailed : (c.declare type name).error.isSome = true := by
          rw [declare, hknown]
          dsimp only
          rw [fail_of_none (by exact hc)]
          rfl
        exact ⟨_, h, (unlessFailed_of_failed hfailed).symm⟩

/-- An identifier is a leaf with its symbol. -/
theorem lowersTo_identify (isTarget : Bool) (name : Token) (hc : c.error = none) :
    LowersTo c ((identifier c.scope isTarget name >>= fun t ↦ pure [t]).run c.progress)
      (c.identify isTarget name) := by
  cases hfound : c.table.lookup? c.scope name.lexeme with
  | none =>
    have hrun : (identifier c.scope isTarget name).run c.progress =
        .error (.unresolvedIdentifier name.lexeme name.position) c.progress := by
      refine run_bind_eq_error.mpr (.inr ⟨c.table, c.progress, rfl, ?_⟩)
      rw [hfound]
      rfl
    rw [EStateM.run_bind, hrun, identify, hfound]
    dsimp only
    rw [fail_of_none hc]
    exact .error ..
  | some symbol =>
    have hrun : (identifier c.scope isTarget name).run c.progress =
        .ok (.leaf { node := .leaf name, symbol := some symbol }) { c.progress with
          table :=
            if isTarget then c.table.markInitialized symbol else c.table.markUsed symbol } := by
      refine run_bind_eq_ok.mpr ⟨c.table, c.progress, rfl, ?_⟩
      rw [hfound]
      rfl
    rw [EStateM.run_bind, hrun, identify, hfound]
    exact .ok ..

end Names

/-! ### Trees -/

/-- A conversion that has failed does nothing more. -/
theorem convert_of_failed (parent : Option Production) (t : Tree Node) (h : c.error.isSome = true) :
    c.convert parent t = c := by
  match t with
  | .node (.branch p) children => cases p <;> rw [convert, if_pos h]
  | .node (.leaf _) _ | .node (.literal _ _) _ => rw [convert]

private theorem convertAll_of_failed (parent : Production) (ts : Forest Node)
    (h : c.error.isSome = true) :
    c.convertAll parent ts = c := by
  induction ts with
  | nil => rw [convertAll]
  | cons t ts ih => rw [convertAll, convert_of_failed (some parent) t h, ih]

mutual

/-- A conversion of a tree comes to what lowering the tree gives. -/
theorem lowersTo_convert (parent : Option Production) (t : Tree Node) (c : Conversion)
    (hc : c.error = none) :
    LowersTo c ((lower c.scope parent t).run c.progress) (c.convert parent t) := by
  match t with
  | .node (.leaf _) _ | .node (.literal _ _) _ =>
    rw [lower, convert]
    exact .nothing c
  | .node (.branch p) children =>
    have hlive : ¬c.error.isSome = true := by simp [hc]
    cases p with
    | block =>
      rw [lower, convert, if_neg hlive]
      -- The scope is changed back at the end, whether or not there is an error by then.
      have hopen : c.openScope.error = none := hc
      have hblock := lowersTo_enter_convertAll .block children c.openScope (.branch .block) hopen
      exact (hblock.branch hopen).of_openScope
    | varDecl =>
      rw [lower, convert, if_neg hlive]
      have henter := (error_enter (.branch .varDecl) c).trans hc
      obtain ⟨f, hf, heq⟩ := lowersTo_declareFrom children henter
      rw [scope_enter] at hf
      rw [heq]
      exact hf.branch hc
    | assignmentStatement | printStatement =>
      rw [lower, convert, if_neg hlive]
      exact (lowersTo_enter_convertAll _ children c _ hc).checked hc
    | ifStatement | whileStatement =>
      rw [lower, convert, if_neg hlive]
      exact (lowersTo_enter_convertAll _ children c _ hc).branch hc
    | stringExpr =>
      rw [lower, convert, if_neg hlive]
      exact (LowersTo.leaf _ _).of_say
    | intExpr | boolExpr =>
      rw [lower, convert, if_neg hlive]
      cases operator? children with
      | none => exact lowersTo_convertAll _ children c hc
      | some operator =>
        have hsaid (said : String) : (c.say .message .verbose said).error = none := hc
        exact ((lowersTo_enter_convertAll _ children (c.say ..) _ (hsaid _)).checked
          (hsaid _)).of_say
    | name =>
      rw [lower, convert, if_neg hlive]
      cases Tree.terminal? (.node (.branch .name) children) with
      | none => exact .nothing c
      | some token => exact lowersTo_identify _ token hc
    | digit | boolVal | typeName =>
      rw [lower, convert, if_neg hlive]
      cases Tree.terminal? _ with
      | none => exact .nothing c
      | some token => exact .leaf _ c
    | program | statementList | statement | expr | charList | boolOp | intOp =>
      rw [lower, convert, if_neg hlive]
      exact (lowersTo_convertAll _ children (c.say ..) hc).of_say

/-- A conversion of trees comes to what lowering the trees gives. -/
theorem lowersTo_convertAll (parent : Production) (ts : Forest Node) (c : Conversion)
    (hc : c.error = none) :
    LowersTo c ((lowerAll c.scope parent ts).run c.progress) (c.convertAll parent ts) := by
  match ts with
  | [] =>
    rw [lowerAll, convertAll]
    exact .nothing c
  | t :: ts =>
    rw [lowerAll, convertAll]
    refine (lowersTo_convert (some parent) t c hc).andThen hc (fun he ↦ ?_) fun he ↦
      convertAll_of_failed parent ts he
    have hothers := lowersTo_convertAll parent ts (c.convert (some parent) t) he
    rwa [(lowersTo_convert (some parent) t c hc).scope_eq] at hothers

private theorem lowersTo_enter_convertAll (parent : Production) (ts : Forest Node) (c : Conversion)
    (node : Node) (hc : c.error = none) :
    LowersTo (c.enter node) ((lowerAll c.scope parent ts).run (c.enter node).progress)
      ((c.enter node).convertAll parent ts) := by
  have h := lowersTo_convertAll parent ts (c.enter node) ((error_enter node c).trans hc)
  rwa [scope_enter] at h

end

/-! ### Programs -/

/-- The start of a conversion. -/
def start : Conversion := { table := begin.table, scope := 0, events := begin.events }

/-- What is reported of a conversion. -/
def report (c : Conversion) : Report AnalysisError Analysis :=
  match c.error with
  | some e => { result := .error e, events := c.events.toList }
  | none =>
    let a : Analysis := { tree := c.builder.forest, table := c.table }
    { result := .ok a, events := c.events.toList ++ a.summary }

/-- An analysis is a conversion of the main tree. -/
theorem analyze_eq (root : Tree Node) (others : Forest Node) :
    analyze (root :: others) = (start.convert none root).report := by
  have h := lowersTo_convert none root start rfl
  have hrun : (lower start.scope none root).run start.progress =
      (lower 0 none root).run begin := rfl
  rw [hrun] at h
  rw [analyze]
  generalize start.convert none root = f at h ⊢
  cases hlower : (lower 0 none root).run begin with
  | error e s =>
    rw [hlower] at h
    cases h
    simp [report]
  | ok trees s =>
    rw [hlower] at h
    cases h
    have hforest : (start.grown trees s).builder.forest = trees := by
      show (Builder.attachAll trees { complete := [], spine := [] }).forest = trees
      rw [Builder.attachAll_closed]
      simp [Builder.forest, Builder.closeSpine]
    rw [report, hforest]
    rfl

end Conversion

end OnePage
