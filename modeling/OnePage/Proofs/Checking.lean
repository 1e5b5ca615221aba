import OnePage.Proofs.Following
import OnePage.Proofs.WellTyped

/-!
# The analysis agrees with the checker

Lowering a phrase follows the checker: it fails with the fault that the checker finds first, and
otherwise gives the shape of the phrase, with the table of scopes still in step with the stack of
blocks. So a source text that can be parsed is analysed exactly if it is well formed.
-/

namespace OnePage

namespace Analysis

open ScopeTable Checker

/-! ### Expressions -/

/-- One tree with a type, a place and a shape, made with symbols only marked. -/
structure LoweredExpr (table : ScopeTable) (shape : Tree Node) (place : Position) (type : VarType)
    (trees : Forest Resolved) (next : ScopeTable) : Prop where
  marks : Marks table next
  tree : ∃ t, trees = [t] ∧ t.type next = .ok type ∧ t.label.node.position? = some place ∧
    t.shape = shape

section Expressions

variable {scope : ScopeId} {parent : Option Production} {table : ScopeTable} {frames : List Frame}

/-- A name stands for a symbol with the type of the variable it is resolved to. -/
theorem follows_name {p : Production} (m : Mark) (hs : Stacked table scope frames) :
    Follows (resolve frames m) (lower scope (some p) (m.wrapped .name .identifier)) table
      fun d trees next ↦ Marks table next ∧ ∃ symbol, next.typeOf symbol = d.type ∧
        trees = [.leaf { node := .leaf (m.token .identifier), symbol := some symbol }] := by
  have hlookup := hs.lookup m.lexeme
  rw [Mark.wrapped, lower]
  refine Follows.map (returns_tableNow.follows ?_)
  unfold resolve
  dsimp only [Mark.token]
  generalize table.lookup? scope m.lexeme = found,
    frames.findSome? (·.lookup m.lexeme) = known at hlookup
  cases hlookup with
  | none => exact follows_throw _
  | @some symbol d hrecords =>
    refine (returns_onTable _).follows (follows_pure ?_)
    have hmarks : Marks table (if some p == some .assignmentStatement then
        table.markInitialized symbol else table.markUsed symbol) := by
      split
      · exact marks_markInitialized table symbol
      · exact marks_markUsed table symbol
    exact ⟨hmarks, symbol, (hmarks.records _ _ hrecords).typeOf, rfl⟩

/-- The text between quotes stands at the place of the first. -/
theorem textOf_place (opening : Mark) (chars : List Mark) (closing : Mark) :
    (textOf (Forest.labels (opening.leaf .quote :: (charTrees chars ++ [closing.leaf .quote])))).2 =
      opening.position := rfl

private theorem returns_text (opening : Mark) (chars : List Mark) (closing : Mark) :
    Returns (lower scope parent (.node (.branch .stringExpr)
      (opening.leaf .quote :: (charTrees chars ++ [closing.leaf .quote])))) table
      [.leaf { node := .literal (String.join (chars.map Mark.lexeme)) opening.position }]
      table := by
  rw [lower, ← textOf_chars opening chars closing, ← textOf_place opening chars closing]
  exact returns_say.bind (returns_pure _)

end Expressions

mutual

private theorem follows_expr : ∀ (e : ExprPhrase) {scope : ScopeId} {parent : Option Production}
    {table : ScopeTable} {frames : List Frame}, Stacked table scope frames →
      Follows (e.infer frames) (lower scope parent e.tree) table
        (LoweredExpr table e.shape e.place)
  | .digit m, scope, parent, table, frames, hs => by
    rw [ExprPhrase.infer, ExprPhrase.tree, ExprPhrase.shape, ExprPhrase.place]
    refine follows_through (by simp) (.single (follows_value (by simp) rfl (.single ?_)))
    exact ⟨_, table, returns_wrapped m .digit (by simp), .refl table, _, rfl, rfl, rfl, rfl⟩
  | .sum m plus rest, scope, parent, table, frames, hs => by
    rw [ExprPhrase.infer, ExprPhrase.tree, ExprPhrase.shape, ExprPhrase.place]
    have hoperands : Follows (rest.infer frames)
        (lowerAll scope .intExpr [m.wrapped .digit .digit, plus.wrapped .intOp .intOp, rest.tree])
        table fun type trees next ↦ ∃ others,
          trees = .leaf { node := .leaf (m.token .digit) } :: others ∧
            LoweredExpr table rest.shape rest.place type others next :=
      (returns_wrapped m .digit (by simp)).follows_cons
        ((returns_operator plus .intOp (by simp)).follows_cons
          (.single ((follows_expr rest hs).mono fun _ others _ h ↦ ⟨others, rfl, h⟩)))
    refine follows_through (by simp) (.single
      (follows_operation (by simp) (operator?_sum m plus rest.tree) hoperands ?_))
    rintro found _ mid ⟨_, rfl, hmarks, t, rfl, htype, hplace, hshape⟩
    refine Follows.give ((follows_check rfl htype hplace).mono ?_)
    rintro _ _ _ ⟨rfl, rfl⟩
    refine ⟨hmarks, _, rfl, type_pair rfl htype, rfl, ?_⟩
    rw [← hshape]
    rfl
  | .text opening chars closing, scope, parent, table, frames, hs => by
    rw [ExprPhrase.infer, ExprPhrase.tree, ExprPhrase.shape, ExprPhrase.place]
    exact follows_through (by simp) (.single
      ⟨_, table, returns_text opening chars closing, .refl table, _, rfl, rfl, rfl, rfl⟩)
  | .bool b, scope, parent, table, frames, hs => by
    rw [ExprPhrase.infer, ExprPhrase.tree, ExprPhrase.shape, ExprPhrase.place]
    exact follows_through (by simp) (.single (follows_bool b hs).give)
  | .name m, scope, parent, table, frames, hs => by
    rw [ExprPhrase.infer, ExprPhrase.tree, ExprPhrase.shape, ExprPhrase.place]
    refine follows_through (by simp) (.single (.give ((follows_name m hs).mono ?_)))
    rintro d _ next ⟨hmarks, symbol, htype, rfl⟩
    exact ⟨hmarks, _, rfl, congrArg Except.ok htype, rfl, rfl⟩

private theorem follows_bool : ∀ (b : BoolPhrase) {scope : ScopeId} {parent : Option Production}
    {table : ScopeTable} {frames : List Frame}, Stacked table scope frames →
      Follows (b.check frames) (lower scope parent b.tree) table
        fun _ ↦ LoweredExpr table b.shape b.place .boolean
  | .value m, scope, parent, table, frames, hs => by
    rw [BoolPhrase.check, BoolPhrase.tree, BoolPhrase.shape, BoolPhrase.place]
    exact follows_value (by simp) rfl (.single
      ⟨_, table, returns_wrapped m .boolVal (by simp), .refl table, _, rfl, rfl, rfl, rfl⟩)
  | .compare opening left operator right closing, scope, parent, table, frames, hs => by
    have hoperands : Follows
        (do
          let expected ← left.infer frames
          let found ← right.infer frames
          pure (expected, found))
        (lowerAll scope .boolExpr [opening.leaf .parenOpen, left.tree,
          operator.wrapped .boolOp .boolOp, right.tree, closing.leaf .parenClose])
        table fun types trees next ↦ ∃ first mid others, trees = first ++ others ∧
          LoweredExpr table left.shape left.place types.1 first mid ∧
          LoweredExpr mid right.shape right.place types.2 others next :=
      (returns_leaf opening .parenOpen).follows_cons ((follows_expr left hs).cons
        fun expected first mid hfirst ↦ (returns_operator operator .boolOp (by simp)).follows_cons
          ((follows_expr right (hs.marks hfirst.marks)).cons fun found others next hothers ↦
            ⟨_, next, returns_leaves [closing] .parenClose, first, mid, others, by simp, hfirst,
              hothers⟩))
    have hcheck : (BoolPhrase.compare opening left operator right closing).check frames =
        (do
          let expected ← left.infer frames
          let found ← right.infer frames
          pure (expected, found)) >>= fun types ↦ agree types.1 types.2 right.place := by
      simp only [BoolPhrase.check, bind_assoc, pure_bind]
    rw [hcheck, BoolPhrase.tree, BoolPhrase.shape, BoolPhrase.place]
    refine follows_operation (by simp) (operator?_compare opening left operator _ _) hoperands ?_
    rintro types _ next ⟨_, mid, _, rfl, ⟨hfirst, l, rfl, hltype, -, hlshape⟩,
      ⟨hsecond, r, rfl, hrtype, hplace, hrshape⟩⟩
    rw [← Tree.type_congr hsecond.same.types] at hltype
    refine (follows_check hltype hrtype hplace).mono ?_
    rintro _ _ _ ⟨rfl, hagree⟩
    refine ⟨hfirst.trans hsecond, _, rfl, type_pair hltype (hagree ▸ hrtype), rfl, ?_⟩
    rw [← hlshape, ← hrshape]
    rfl

end

/-! ### Statements -/

/-- Trees of the given shapes, made by adding scopes and leaving the scopes that were there in step
with a stack of blocks. -/
structure LoweredStmts (table : ScopeTable) (scope : ScopeId) (shapes : Forest Node)
    (frames : List Frame) (trees : Forest Resolved) (next : ScopeTable) : Prop where
  scopes : table.scopes.size ≤ next.scopes.size
  ancestors : ∀ s < table.scopes.size, next.ancestors s = table.ancestors s
  stacked : Stacked next scope frames
  shapes_eq : Forest.shapes trees = shapes

section Statements

variable {scope : ScopeId} {parent : Option Production} {table next : ScopeTable} {frame : Frame}
  {outer frames : List Frame}

/-- Marking symbols leaves the stack as it is. -/
theorem LoweredStmts.of_marks {shapes : Forest Node} {trees : Forest Resolved}
    (hs : Stacked table scope frames) (h : Marks table next)
    (hshapes : Forest.shapes trees = shapes) :
    LoweredStmts table scope shapes frames trees next where
  scopes := Nat.le_of_eq (congrArg Array.size h.same.scopes).symm
  ancestors s _ := by rw [ScopeTable.ancestors, h.same.scopes, ScopeTable.ancestors]
  stacked := hs.marks h
  shapes_eq := hshapes

private theorem LoweredStmts.append {mid : ScopeTable} {shapes more : Forest Node}
    {trees others : Forest Resolved} {between : List Frame}
    (h : LoweredStmts table scope shapes between trees mid)
    (k : LoweredStmts mid scope more frames others next) :
    LoweredStmts table scope (shapes ++ more) frames (trees ++ others) next where
  scopes := Nat.le_trans h.scopes k.scopes
  ancestors s hs :=
    (k.ancestors s (Nat.lt_of_lt_of_le hs h.scopes)).trans (h.ancestors s hs)
  stacked := k.stacked
  shapes_eq := by rw [Forest.shapes_append, h.shapes_eq, k.shapes_eq]

private theorem follows_declaration (type name : Mark) (hs : Stacked table scope (frame :: outer)) :
    Follows (Checker.declare frame type name) (lower scope parent (.node (.branch .varDecl)
      [type.wrapped .typeName .typeWord, name.wrapped .name .identifier])) table
      fun later ↦ LoweredStmts table scope
        [.node (.branch .varDecl) [type.shape .typeWord, name.shape .identifier]]
        (later :: outer) := by
  have hchildren : Follows (Checker.declare frame type name)
      (declaration scope [type.wrapped .typeName .typeWord, name.wrapped .name .identifier]) table
      fun later trees next ↦ next = (table.declare scope (.ofKeyword type.lexeme)
          (name.token .identifier)).2 ∧ Stacked next scope (later :: outer) ∧
        Forest.shapes trees = [type.shape .typeWord, name.shape .identifier] := by
    have hlookup := hs.lookupLocal name.lexeme
    refine returns_tableNow.follows ?_
    unfold Checker.declare
    dsimp only [Mark.token]
    generalize table.lookupLocal? scope name.lexeme = found,
      List.lookup name.lexeme frame = known at hlookup
    cases hlookup with
    | @some symbol first hrecords =>
      obtain ⟨s, hsymbol, -, hline⟩ := hrecords
      dsimp only
      rw [hsymbol, ← hline]
      exact follows_throw _
    | none =>
      refine returns_say.follows ((returns_onTable _).follows (follows_pure ?_))
      exact ⟨rfl, hs.declare _ _, rfl⟩
  rw [lower]
  refine Follows.map (hchildren.branch.mono ?_)
  rintro later _ _ ⟨trees, rfl, rfl, hstacked, hshapes⟩
  refine ⟨by simp [ScopeTable.declare], fun s _ ↦ ancestors_declare .., hstacked, ?_⟩
  simp only [Forest.shapes, Tree.shape, hshapes]
  rfl

private theorem follows_assignment (name sign : Mark) (value : ExprPhrase)
    (hs : Stacked table scope (frame :: outer)) :
    Follows ((StmtPhrase.assign name sign value).check outer frame)
      (lower scope parent (.node (.branch .assignmentStatement)
        [name.wrapped .name .identifier, sign.leaf .assign, value.tree])) table
      fun later ↦ LoweredStmts table scope
        [.node (.branch .assignmentStatement) [name.shape .identifier, value.shape]]
        (later :: outer) := by
  have hparts : Follows
      (do
        let target ← resolve (frame :: outer) name
        let found ← value.infer (frame :: outer)
        pure (target.type, found))
      (lowerAll scope .assignmentStatement
        [name.wrapped .name .identifier, sign.leaf .assign, value.tree])
      table fun types trees next ↦ ∃ symbol mid others, trees =
          .leaf { node := .leaf (name.token .identifier), symbol := some symbol } :: others ∧
        Marks table mid ∧ mid.typeOf symbol = types.1 ∧
        LoweredExpr mid value.shape value.place types.2 others next := by
    refine (follows_name name hs).cons ?_
    rintro target _ mid ⟨hmarks, symbol, htype, rfl⟩
    refine (returns_leaf sign .assign).follows_cons (.single (.give ?_))
    exact (follows_expr value (hs.marks hmarks)).mono fun found others _ hvalue ↦
      ⟨symbol, mid, others, rfl, hmarks, htype, hvalue⟩
  have hcheck : (StmtPhrase.assign name sign value).check outer frame =
      (do
        let target ← resolve (frame :: outer) name
        let found ← value.infer (frame :: outer)
        pure (target.type, found)) >>= fun types ↦
          (agree types.1 types.2 value.place >>= fun _ ↦ pure frame) := by
    simp only [StmtPhrase.check, bind_assoc, pure_bind]
  rw [hcheck]
  refine follows_checked (by simp) hparts ?_
  rintro types _ next ⟨symbol, mid, _, rfl, hmarks, htarget, ⟨hvalue, v, rfl, hv, hplace, hshape⟩⟩
  have htype : Tree.type next
      (.leaf { node := .leaf (name.token .identifier), symbol := some symbol }) = .ok types.1 := by
    rw [← htarget, ← hvalue.same.types]
    rfl
  refine Follows.give ((follows_check htype hv hplace).mono ?_)
  rintro _ _ _ ⟨rfl, -⟩
  refine .of_marks hs (hmarks.trans hvalue) ?_
  rw [← hshape]
  rfl

private theorem follows_print (word opening : Mark) (value : ExprPhrase) (closing : Mark)
    (hs : Stacked table scope (frame :: outer)) :
    Follows ((StmtPhrase.print word opening value closing).check outer frame)
      (lower scope parent (.node (.branch .printStatement) [word.leaf .printWord,
        opening.leaf .parenOpen, value.tree, closing.leaf .parenClose])) table
      fun later ↦ LoweredStmts table scope [.node (.branch .printStatement) [value.shape]]
        (later :: outer) := by
  have hparts : Follows (value.infer (frame :: outer)) (lowerAll scope .printStatement
      [word.leaf .printWord, opening.leaf .parenOpen, value.tree, closing.leaf .parenClose]) table
      (LoweredExpr table value.shape value.place) :=
    (returns_leaf word .printWord).follows_cons ((returns_leaf opening .parenOpen).follows_cons
      ((follows_expr value hs).alone fun _ ↦ returns_leaves [closing] .parenClose))
  rw [StmtPhrase.check]
  refine follows_checked (by simp) hparts ?_
  rintro type _ next ⟨hmarks, v, rfl, hv, -, hshape⟩
  have htype : Tree.type next (.node { node := .branch .printStatement } [v]) = .ok type := by
    simp [Tree.type, Forest.haveType, hv, Resolved.branchType, bind, Except.bind, pure, Except.pure]
  refine ⟨(), next, returns_check htype, .of_marks hs hmarks ?_⟩
  rw [← hshape]
  rfl

/-- Lowering the statements of a block in its own scope lowers the block. -/
theorem follows_block (opening closing : Mark) {body : List StmtPhrase}
    (hbody : ∀ {scope : ScopeId} {table : ScopeTable}, Stacked table scope ([] :: frames) →
      Follows (StmtPhrase.checkAll frames [] body) (lowerAll scope .block
        (StmtPhrase.trees body ++ [closing].map (·.leaf .braceClose))) table
        fun inner ↦ LoweredStmts table scope (StmtPhrase.shapes body) (inner :: frames))
    (hs : Stacked table scope frames) :
    Follows (StmtPhrase.checkAll frames [] body)
      (lower scope parent (blockTree opening (StmtPhrase.trees body) closing)) table
      fun _ ↦ LoweredStmts table scope [.node (.branch .block) (StmtPhrase.shapes body)]
        frames := by
  rw [blockTree, lower]
  have hinner := (returns_leaf opening .braceOpen).follows_cons (hbody hs.adopt)
  refine (returns_onTable _).follows (Follows.map (hinner.branch.mono ?_))
  rintro inner _ next ⟨trees, rfl, hlowered⟩
  have hsize : (table.adopt scope).2.scopes.size = table.scopes.size + 1 := by
    simp [ScopeTable.adopt]
  have hgrown := hlowered.scopes
  have hold : ∀ s < table.scopes.size, next.ancestors s = table.ancestors s := by
    intro s hlt
    rw [hlowered.ancestors s (by omega), ancestors_adopt_of_ne table scope (Nat.ne_of_lt hlt)]
  have hpath : next.ancestors table.scopes.size = scope :: next.ancestors scope := by
    rw [hlowered.ancestors _ (by omega), ancestors_adopt_self,
      hold scope (hs.scopes_lt scope (List.mem_cons_self ..))]
  refine ⟨by omega, hold, hlowered.stacked.leave hpath, ?_⟩
  simp only [Forest.shapes, Tree.shape, hlowered.shapes_eq]
  rfl

/-- A condition and a block under a word are lowered one after the other. -/
theorem follows_guarded_block {p : Production} (word : Mark) (kind : Kind)
    (condition : BoolPhrase) {r : Except AnalysisError Frame} {block : Tree Node}
    {shape : Tree Node} (hp : p = .ifStatement ∨ p = .whileStatement)
    (hblock : ∀ {table : ScopeTable}, Stacked table scope (frame :: outer) →
      Follows r (lower scope (some p) block) table
        fun later ↦ LoweredStmts table scope [shape] (later :: outer))
    (hs : Stacked table scope (frame :: outer)) :
    Follows (condition.check (frame :: outer) >>= fun _ ↦ r)
      (lower scope parent (.node (.branch p) [word.leaf kind, condition.tree, block])) table
      fun later ↦ LoweredStmts table scope [.node (.branch p) [condition.shape, shape]]
        (later :: outer) := by
  have hparts : Follows (condition.check (frame :: outer) >>= fun _ ↦ r)
      (lowerAll scope p [word.leaf kind, condition.tree, block]) table
      fun later ↦ LoweredStmts table scope [condition.shape, shape] (later :: outer) := by
    refine (returns_leaf word kind).follows_cons ((follows_bool condition hs).cons ?_)
    rintro _ _ mid ⟨hmarks, test, rfl, -, -, htest⟩
    have hcondition : LoweredStmts table scope [condition.shape] (frame :: outer) [test] mid :=
      .of_marks hs hmarks (by rw [← htest]; rfl)
    exact .single ((hblock hcondition.stacked).mono fun _ _ _ hbody ↦ hcondition.append hbody)
  refine (follows_guarded hp hparts).mono ?_
  rintro later _ next ⟨parts, rfl, hlowered⟩
  refine ⟨hlowered.scopes, hlowered.ancestors, hlowered.stacked, ?_⟩
  simp only [Forest.shapes, Tree.shape, hlowered.shapes_eq]
  rfl

end Statements

mutual

private theorem follows_stmt : ∀ (s : StmtPhrase) {scope : ScopeId} {parent : Option Production}
    {table : ScopeTable} {outer : List Frame} {frame : Frame},
    Stacked table scope (frame :: outer) →
      Follows (s.check outer frame) (lower scope parent s.tree) table
        fun later ↦ LoweredStmts table scope [s.shape] (later :: outer)
  | .print word opening value closing, scope, parent, table, outer, frame, hs => by
    rw [StmtPhrase.tree, StmtPhrase.shape]
    exact follows_through (by simp) (.single (follows_print word opening value closing hs))
  | .assign name sign value, scope, parent, table, outer, frame, hs => by
    rw [StmtPhrase.tree, StmtPhrase.shape]
    exact follows_through (by simp) (.single (follows_assignment name sign value hs))
  | .declare type name, scope, parent, table, outer, frame, hs => by
    rw [StmtPhrase.tree, StmtPhrase.shape, StmtPhrase.check]
    exact follows_through (by simp) (.single (follows_declaration type name hs))
  | .whileDo word condition opening body closing, scope, parent, table, outer, frame, hs => by
    rw [StmtPhrase.tree, StmtPhrase.shape, StmtPhrase.check]
    exact follows_through (by simp) (.single (follows_guarded_block word .whileWord condition
      (.inr rfl) (fun hs ↦ .give (follows_block opening closing
        (fun hs ↦ follows_stmts body [closing] hs) hs)) hs))
  | .ifThen word condition opening body closing, scope, parent, table, outer, frame, hs => by
    rw [StmtPhrase.tree, StmtPhrase.shape, StmtPhrase.check]
    exact follows_through (by simp) (.single (follows_guarded_block word .ifWord condition
      (.inl rfl) (fun hs ↦ .give (follows_block opening closing
        (fun hs ↦ follows_stmts body [closing] hs) hs)) hs))
  | .block opening body closing, scope, parent, table, outer, frame, hs => by
    rw [StmtPhrase.tree, StmtPhrase.shape, StmtPhrase.check]
    exact follows_through (by simp) (.single (.give
      (follows_block opening closing (fun hs ↦ follows_stmts body [closing] hs) hs)))

private theorem follows_stmts : ∀ (ss : List StmtPhrase) (ms : List Mark) {scope : ScopeId}
    {p : Production} {table : ScopeTable} {outer : List Frame} {frame : Frame},
    Stacked table scope (frame :: outer) →
      Follows (StmtPhrase.checkAll outer frame ss)
        (lowerAll scope p (StmtPhrase.trees ss ++ ms.map (·.leaf .braceClose))) table
        fun later ↦ LoweredStmts table scope (StmtPhrase.shapes ss) (later :: outer)
  | [], ms, scope, p, table, outer, frame, hs => by
    rw [StmtPhrase.checkAll, StmtPhrase.trees, StmtPhrase.shapes]
    exact ⟨[], table, returns_leaves ms .braceClose, .of_marks hs (.refl table) rfl⟩
  | s :: ss, ms, scope, p, table, outer, frame, hs => by
    rw [StmtPhrase.checkAll, StmtPhrase.trees, StmtPhrase.shapes]
    refine Follows.alone (follows_through (by simp) ((follows_stmt s hs).cons ?_))
      fun _ ↦ returns_leaves ms .braceClose
    intro between first mid hfirst
    rw [← List.append_nil (StmtPhrase.trees ss)]
    exact Follows.mono (follows_stmts ss [] hfirst.stacked)
      fun _ _ _ hothers ↦ hfirst.append hothers

end

/-- Lowering a program follows the checker. -/
theorem follows_program (p : ProgramPhrase) :
    Follows p.check (lower 0 none p.tree) .start
      fun _ trees _ ↦ Forest.shapes trees = [p.shape] := by
  have hblock : Follows p.check (lower 0 (some .program)
      (blockTree p.opening (StmtPhrase.trees p.body) p.closing)) .start _ :=
    follows_block p.opening p.closing (fun hs ↦ follows_stmts p.body [p.closing] hs) stacked_start
  exact follows_through (by simp)
    ((hblock.mono fun _ _ _ h ↦ h.shapes_eq).alone fun _ ↦ returns_leaves [p.sentinel] .eof)

end Analysis

/-- The analysis of a program fails with the first fault that the checker finds. -/
theorem analyze_of_check_error {p : ProgramPhrase} {e : AnalysisError} (h : p.check = .error e) :
    (analyze [p.tree]).result = .error e := by
  have hfollows := Analysis.follows_program p
  rw [h] at hfollows
  obtain ⟨s, hrun⟩ := hfollows Analysis.begin.events
  have hbegin : (Analysis.lower 0 none p.tree).run Analysis.begin = .error e s := hrun
  simp only [analyze, hbegin]

/-- The analysis of a program in which the checker finds no fault gives one tree of its shape. -/
theorem analyze_of_check_ok {p : ProgramPhrase} {frame : Checker.Frame} (h : p.check = .ok frame) :
    ∃ a root, (analyze [p.tree]).result = .ok a ∧ a.tree = [root] ∧ root.shape = p.shape := by
  have hfollows := Analysis.follows_program p
  rw [h] at hfollows
  obtain ⟨trees, next, hreturns, hshapes⟩ := hfollows
  obtain ⟨later, hrun⟩ := hreturns Analysis.begin.events
  have hbegin : (Analysis.lower 0 none p.tree).run Analysis.begin =
      .ok trees { table := next, events := later } := hrun
  cases trees with
  | nil => cases hshapes
  | cons root others =>
    rw [Forest.shapes] at hshapes
    obtain ⟨hroot, hothers⟩ := List.cons.inj hshapes
    cases others with
    | cons t ts => cases hothers
    | nil =>
      refine ⟨{ tree := [root], table := next }, root, ?_, rfl, hroot⟩
      simp only [analyze, hbegin]

/-- A source text that can be scanned and parsed is that of a program, which is analysed exactly if
it is well formed. If it is not, the analysis fails with the first fault that the checker finds. -/
theorem analyze_ok_iff_wellFormed (source : String) (tokens : List Token) (cst : Forest Node)
    (hscan : (Scan.ofSource source).result = .ok tokens)
    (hparse : (parse tokens).result = .ok cst) :
    ∃ p : ProgramPhrase, tokens = p.tokens ∧ cst = [p.tree] ∧
      ((∃ a, (analyze cst).result = .ok a) ↔ WellFormedProgram (StmtPhrase.commands p.body)) ∧
      ∀ e, (analyze cst).result = .error e ↔ p.check = .error e := by
  obtain ⟨rest, hprogram⟩ := parse_eq_ok.mp hparse
  obtain ⟨p, rfl, rfl⟩ := Derivation.program_sound hprogram
  obtain rfl := p.scan_eq hscan
  refine ⟨p, List.append_nil _, rfl, ?_, fun e ↦ ?_⟩
  · rw [← p.check_eq_ok]
    cases hcheck : p.check with
    | error e => simp [analyze_of_check_error hcheck]
    | ok frame =>
      obtain ⟨a, _, hok, _⟩ := analyze_of_check_ok hcheck
      simp [hok]
  · cases hcheck : p.check with
    | error e => simp [analyze_of_check_error hcheck]
    | ok frame =>
      obtain ⟨a, _, hok, _⟩ := analyze_of_check_ok hcheck
      simp [hok]

/-- A source in which a text is compared with a sum below the declaration that makes it one. -/
def shadowed : String :=
  "\x7bint a a = 1 \x7bstring a a = \"x\" if (a != 2 + 3) \x7bprint(b)\x7d\x7d\x7d$"

/-- The comparison is the first fault, and is cited at the sign of the sum. -/
theorem analyze_ok_iff_wellFormed_shadowed : ∃ tokens cst,
    (Scan.ofSource shadowed).result = .ok tokens ∧ (parse tokens).result = .ok cst ∧
    (analyze cst).result = .error (.typeMismatch .string .int ⟨1, 43⟩) ∧
    ∃ p : ProgramPhrase, tokens = p.tokens ∧ cst = [p.tree] ∧
      ((∃ a, (analyze cst).result = .ok a) ↔ WellFormedProgram (StmtPhrase.commands p.body)) ∧
      ∀ e, (analyze cst).result = .error e ↔ p.check = .error e := by
  have hfault : ((Scan.ofSource shadowed).result.toOption.bind fun tokens ↦
      (parse tokens).result.toOption.bind fun cst ↦
        match (analyze cst).result with
        | .ok _ => none
        | .error e => some e) = some (.typeMismatch .string .int ⟨1, 43⟩) := by decide +kernel
  cases hscan : (Scan.ofSource shadowed).result with
  | error e =>
    rw [hscan] at hfault
    cases hfault
  | ok tokens =>
    simp only [hscan, Except.toOption, Option.bind_some] at hfault
    cases hparse : (parse tokens).result with
    | error e =>
      rw [hparse] at hfault
      cases hfault
    | ok cst =>
      simp only [hparse, Option.bind_some] at hfault
      cases hanalyze : (analyze cst).result with
      | ok a =>
        rw [hanalyze] at hfault
        cases hfault
      | error e =>
        rw [hanalyze] at hfault
        cases hfault
        obtain ⟨p, htokens, htree, hiff⟩ := analyze_ok_iff_wellFormed _ _ _ hscan hparse
        exact ⟨tokens, cst, rfl, hparse, hanalyze, p, htokens, htree, hiff⟩

end OnePage
