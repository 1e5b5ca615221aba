import OnePage.Proofs.WellTyped

/-!
# What a compilation says

Events come stage by stage, in the order of the stages. A stage that fails says so once and says
nothing more: the last event tells its error and the place of it, and no event before it is an
error. A compilation that succeeds has no error among its events.
-/

namespace OnePage

/-! ### Steps that maintain a property of the state -/

section Steps

variable {ε σ α β : Type} {P : σ → Prop} {E : ε → Prop}

/-- The step keeps a property of the state, whether it succeeds or fails, and fails only with errors
that are as they should be. -/
def Maintains (P : σ → Prop) (x : EStateM ε σ α) (E : ε → Prop := fun _ ↦ True) : Prop :=
  ∀ s, P s → match x.run s with
    | .ok _ t => P t
    | .error e t => E e ∧ P t

private theorem maintains_pure (a : α) : Maintains P (pure a : EStateM ε σ α) E := fun _ hs ↦ hs

private theorem maintains_throw {e : ε} (h : E e) : Maintains P (throw e : EStateM ε σ α) E :=
  fun _ hs ↦ ⟨h, hs⟩

private theorem maintains_set {s : σ} (h : P s) :
    Maintains P (set s : EStateM ε σ PUnit) E := fun _ _ ↦ h

private theorem maintains_modify {f : σ → σ} (h : ∀ s, P s → P (f s)) :
    Maintains P (modify f : EStateM ε σ PUnit) E := h

private theorem maintains_modifyGet {f : σ → α × σ} (h : ∀ s, P s → P (f s).2) :
    Maintains P (modifyGet f : EStateM ε σ α) E := h

private theorem Maintains.bind {x : EStateM ε σ α} {f : α → EStateM ε σ β} (hx : Maintains P x E)
    (hf : ∀ a, Maintains P (f a) E) : Maintains P (x >>= f) E := by
  intro s hs
  have hmid := hx s hs
  rw [EStateM.run_bind]
  cases hrun : x.run s with
  | error e t =>
    rw [hrun] at hmid
    exact hmid
  | ok a t =>
    rw [hrun] at hmid
    exact hf a t hmid

/-- What is done with the state as it is may rely on the property. -/
theorem maintains_get_bind {f : σ → EStateM ε σ α} (h : ∀ s, P s → Maintains P (f s) E) :
    Maintains P (get >>= f) E :=
  fun s hs ↦ h s hs s hs

end Steps

/-! ### Reports -/

/-- The place of a phase in the order of the stages. -/
def Phase.rank : Phase → Nat
  | lex => 0
  | parse => 1
  | semantic => 2
  | codeGen => 3

namespace CompileError

/-- The stage that an error ends. -/
def phase : CompileError → Phase
  | scan _ => .lex
  | parse _ => .parse
  | analysis _ => .semantic
  | code _ => .codeGen

/-- The place an error cites. -/
def position? : CompileError → Option Position
  | scan e => some e.position
  | parse e => e.position?
  | analysis e => e.position?
  | code _ => none

/-- The errors that have a place: all but an end of the tokens that comes too early and those of
code generation. -/
def isPlaced : CompileError → Bool
  | parse (.unexpectedEnd _) | code _ => false
  | scan _ | parse (.unexpectedToken _ _ _) | analysis _ => true

end CompileError

/-- The event tells the error, with its stage, its text and its place. -/
structure Event.Tells (event : Event) (e : CompileError) : Prop where
  severity : event.severity = .error
  phase : event.phase = e.phase
  text : event.text = e.cause
  position : event.position = e.position?
  placed : event.position.isSome = e.isPlaced

/-- The events of a success have no error among them; those of a failure end with the one that tells
it. -/
def Told {α : Type} (result : Except CompileError α) (events : List Event) : Prop :=
  match result with
  | .ok _ => ∀ event ∈ events, event.severity ≠ .error
  | .error e => ∃ said last, events = said ++ [last] ∧
      (∀ event ∈ said, event.severity ≠ .error) ∧ Event.Tells last e

/-- The events are of the phase, and none of them is an error. -/
def Quiet (phase : Phase) (events : List Event) : Prop :=
  ∀ event ∈ events, event.phase = phase ∧ event.severity ≠ .error

private theorem Quiet.nil (phase : Phase) : Quiet phase [] := List.forall_mem_nil _

private theorem Quiet.append {phase : Phase} {events more : List Event} (h : Quiet phase events)
    (k : Quiet phase more) : Quiet phase (events ++ more) :=
  List.forall_mem_append.mpr ⟨h, k⟩

/-- A stage speaks quietly in its phase, except that it ends with its error if it has one. -/
def Report.Stage {α : Type} (phase : Phase) (r : Report CompileError α) : Prop :=
  match r.result with
  | .ok _ => Quiet phase r.events
  | .error e => e.phase = phase ∧ ∃ said last, r.events = said ++ [last] ∧ Quiet phase said ∧
      Event.Tells last e

/-- What is said from a phase on: the phases are in order, and the result is told. -/
structure Report.SaysFrom {α : Type} (phase : Phase) (r : Report CompileError α) : Prop where
  later : ∀ event ∈ r.events, phase.rank ≤ event.phase.rank
  ordered : r.events.Pairwise fun d e ↦ d.phase.rank ≤ e.phase.rank
  told : Told r.result r.events

namespace Report

variable {α β : Type} {phase : Phase} {r : Report CompileError α}

/-- All events of a stage are of its phase. -/
theorem Stage.phase_eq (h : r.Stage phase) : ∀ event ∈ r.events, event.phase = phase := by
  unfold Stage at h
  split at h
  · exact fun event he ↦ (h event he).1
  · obtain ⟨hphase, said, last, hevents, hsaid, hlast⟩ := h
    rw [hevents]
    exact List.forall_mem_append.mpr ⟨fun event he ↦ (hsaid event he).1,
      List.forall_mem_singleton.mpr (hlast.phase.trans hphase)⟩

private theorem Stage.told (h : r.Stage phase) : Told r.result r.events := by
  unfold Stage at h
  unfold Told
  split at h
  · exact fun event he ↦ (h event he).2
  · obtain ⟨_, said, last, hevents, hsaid, hlast⟩ := h
    exact ⟨said, last, hevents, fun event he ↦ (hsaid event he).2, hlast⟩

/-- A stage speaks in order. -/
theorem Stage.saysFrom (h : r.Stage phase) : r.SaysFrom phase where
  later event he := Nat.le_of_eq (congrArg Phase.rank (h.phase_eq event he)).symm
  ordered := List.pairwise_of_forall_mem_list fun d hd e he ↦
    Nat.le_of_eq (by rw [h.phase_eq d hd, h.phase_eq e he])
  told := h.told

/-- A stage may be followed by others that speak in later phases. -/
theorem Stage.andThen {f : α → Report CompileError β} (h : r.Stage phase) (next : Phase)
    (hnext : phase.rank ≤ next.rank) (hf : ∀ a, r.result = .ok a → (f a).SaysFrom next) :
    (r.andThen f).SaysFrom phase := by
  obtain ⟨hfirst, hordered, hquiet⟩ := h.saysFrom
  unfold Report.andThen
  cases hresult : r.result with
  | error e =>
    rw [hresult] at hquiet
    exact ⟨hfirst, hordered, hquiet⟩
  | ok a =>
    rw [hresult] at hquiet
    have ha := hf a hresult
    have hlater : ∀ event ∈ (f a).events, phase.rank ≤ event.phase.rank :=
      fun event he ↦ Nat.le_trans hnext (ha.later event he)
    refine ⟨List.forall_mem_append.mpr ⟨hfirst, hlater⟩, ?_, ?_⟩
    · refine List.pairwise_append.mpr ⟨hordered, ha.ordered, fun d hd e he ↦ ?_⟩
      rw [h.phase_eq d hd]
      exact hlater e he
    · have htold := ha.told
      dsimp only
      generalize (f a).result = result at htold
      cases result with
      | ok b => exact List.forall_mem_append.mpr ⟨hquiet, htold⟩
      | error e =>
        obtain ⟨said, last, hevents, hsaid, hlast⟩ := htold
        exact ⟨r.events ++ said, last, by rw [hevents, List.append_assoc],
          List.forall_mem_append.mpr ⟨hquiet, hsaid⟩, hlast⟩

end Report

/-! ### Scanning and parsing -/

private theorem Scan.quiet_tokens (tokens : List Token) : Quiet .lex (tokens.map tokenEvent) := by
  intro event he
  obtain ⟨t, _, rfl⟩ := List.mem_map.mp he
  exact ⟨rfl, by simp [tokenEvent]⟩

/-- The lexer is a stage: it speaks quietly in its phase, except for its error. -/
theorem Scan.stage (s : Scan) : (s.report.mapError CompileError.scan).Stage .lex := by
  obtain ⟨tokens, ending⟩ := s
  cases ending with
  | fault e =>
    exact ⟨rfl, tokens.map tokenEvent, _, rfl, quiet_tokens tokens, rfl, rfl, rfl, rfl, rfl⟩
  | exhausted p =>
    refine (quiet_tokens tokens).append (List.forall_mem_singleton.mpr ⟨rfl, ?_⟩)
    simp
  | sentinel rest p =>
    refine (quiet_tokens tokens).append ?_
    change Quiet .lex (if rest.all Text.isBlank then [] else _)
    split
    · exact .nil _
    · exact List.forall_mem_singleton.mpr ⟨rfl, by simp⟩

private theorem Session.quiet_nodes (nodes : List Node) : Quiet .parse (nodes.map nodeEvent) := by
  intro event he
  obtain ⟨node, _, rfl⟩ := List.mem_map.mp he
  cases node <;> exact ⟨rfl, by simp [nodeEvent]⟩

/-- The parser is a stage: it speaks quietly in its phase, except for its error. -/
theorem Session.stage (s : Session) : (s.report.mapError CompileError.parse).Stage .parse := by
  obtain ⟨rest, programs, failure⟩ := s
  cases failure with
  | none =>
    refine (quiet_nodes (Forest.labels programs)).append (List.forall_mem_singleton.mpr ⟨rfl, ?_⟩)
    simp [completed]
  | some failure =>
    have hquiet := (quiet_nodes (Forest.labels programs)).append (quiet_nodes failure.made)
    refine ⟨rfl, _, errorEvent failure.error, rfl, hquiet, rfl, rfl, rfl, rfl, ?_⟩
    cases failure.error <;> rfl

/-! ### Analysis -/

namespace Analysis

/-- Only events of the analysis have been said so far, and none that is a warning or an error. -/
def Calm (s : Progress) : Prop :=
  Quiet .semantic s.events.toList ∧ ∀ event ∈ s.events.toList, event.severity ≠ .warning

/-- The error cites a place. -/
def Placed (e : AnalysisError) : Prop := e.position?.isSome = true

mutual

/-- Types that do not agree are found somewhere. -/
theorem placed_of_type {table : ScopeTable} : ∀ (t : Tree Resolved) {e : AnalysisError},
    t.type table = .error e → Placed e
  | .node r [], e, h => by cases h
  | .node r (t :: ts), e, h => by
    rw [Tree.type] at h
    cases htype : t.type table with
    | error found =>
      rw [htype] at h
      cases h
      exact placed_of_type t htype
    | ok shared =>
      rw [htype] at h
      cases hothers : Forest.haveType table shared ts with
      | error found =>
        simp only [bind, Except.bind, hothers] at h
        cases h
        exact placed_of_haveType ts hothers
      | ok _ =>
        simp only [bind, Except.bind, hothers] at h
        cases h

private theorem placed_of_haveType {table : ScopeTable} {expected : VarType} :
    ∀ (ts : Forest Resolved) {e : AnalysisError},
      Forest.haveType table expected ts = .error e → Placed e
  | [], e, h => by cases h
  | t :: ts, e, h => by
    rw [Forest.haveType] at h
    cases htype : t.type table with
    | error found =>
      rw [htype] at h
      cases h
      exact placed_of_type t htype
    | ok found =>
      rw [htype] at h
      simp only [bind, Except.bind] at h
      split at h
      · exact placed_of_haveType ts h
      · cases h
        rfl

end

private theorem maintains_say {severity : Severity} (h : severity ≠ .error ∧ severity ≠ .warning)
    (profile : Profile) (text : String) :
    Maintains Calm (say severity profile text) Placed := by
  refine maintains_modify fun s ⟨hquiet, hwarned⟩ ↦ ?_
  rw [Calm, Array.toList_push]
  exact ⟨hquiet.append (List.forall_mem_singleton.mpr ⟨rfl, h.1⟩),
    List.forall_mem_append.mpr ⟨hwarned, List.forall_mem_singleton.mpr h.2⟩⟩

private theorem maintains_onTable {α : Type} (change : ScopeTable → α × ScopeTable) :
    Maintains Calm (onTable change) Placed :=
  maintains_modifyGet fun _ hs ↦ hs

private theorem maintains_tableNow : Maintains Calm tableNow Placed :=
  maintains_get_bind fun _ _ ↦ maintains_pure _

private theorem maintains_branch {node : Node} {children : Step (Forest Resolved)}
    (h : Maintains Calm children Placed) : Maintains Calm (branch node children) Placed :=
  (maintains_say (by decide) _ _).bind fun _ ↦ h.bind fun _ ↦ maintains_pure _

private theorem maintains_check (t : Tree Resolved) : Maintains Calm (check t) Placed := by
  refine maintains_tableNow.bind fun table ↦ ?_
  split
  · exact maintains_say (by decide) _ _
  · next htype => exact maintains_throw (placed_of_type t htype)

private theorem maintains_declaration (scope : ScopeId) (children : Forest Node) :
    Maintains Calm (declaration scope children) Placed := by
  unfold declaration
  split
  · refine maintains_tableNow.bind fun known ↦ ?_
    split
    · exact maintains_throw rfl
    · exact (maintains_say (by decide) _ _).bind fun _ ↦ (maintains_onTable _).bind fun _ ↦
        maintains_pure _
  · exact maintains_pure _

private theorem maintains_identifier (scope : ScopeId) (isTarget : Bool) (name : Token) :
    Maintains Calm (identifier scope isTarget name) Placed := by
  refine maintains_tableNow.bind fun table ↦ ?_
  split
  · exact maintains_throw rfl
  · exact (maintains_onTable _).bind fun _ ↦ maintains_pure _

mutual

/-- Lowering says nothing that is a warning or an error, and fails at some place. -/
theorem maintains_lower : ∀ (t : Tree Node) (scope : ScopeId) (parent : Option Production),
    Maintains Calm (lower scope parent t) Placed
  | .node (.leaf _) _, scope, parent | .node (.literal _ _) _, scope, parent => by
    rw [lower]
    exact maintains_pure _
  | .node (.branch p) children, scope, parent => by
    have hall := maintains_lowerAll children
    cases p with
    | block =>
      rw [lower]
      exact (maintains_onTable _).bind fun _ ↦ (maintains_branch (hall _ _)).bind fun _ ↦
        maintains_pure _
    | varDecl =>
      rw [lower]
      exact (maintains_branch (maintains_declaration _ _)).bind fun _ ↦ maintains_pure _
    | assignmentStatement | printStatement =>
      rw [lower]
      exact (maintains_branch (hall _ _)).bind fun t ↦ (maintains_check t).bind fun _ ↦
        maintains_pure _
    | ifStatement | whileStatement =>
      rw [lower]
      exact (maintains_branch (hall _ _)).bind fun _ ↦ maintains_pure _
    | stringExpr =>
      rw [lower]
      exact (maintains_say (by decide) _ _).bind fun _ ↦ maintains_pure _
    | intExpr | boolExpr =>
      rw [lower]
      split
      · exact (maintains_say (by decide) _ _).bind fun _ ↦
          (maintains_branch (hall _ _)).bind fun t ↦
            (maintains_check t).bind fun _ ↦ maintains_pure _
      · exact hall _ _
    | name =>
      rw [lower]
      split
      · exact (maintains_identifier _ _ _).bind fun _ ↦ maintains_pure _
      · exact maintains_pure _
    | digit | boolVal | typeName =>
      rw [lower]
      split <;> exact maintains_pure _
    | program | statementList | statement | expr | charList | boolOp | intOp =>
      rw [lower]
      exact (maintains_say (by decide) _ _).bind fun _ ↦ hall _ _

private theorem maintains_lowerAll : ∀ (ts : Forest Node) (scope : ScopeId) (parent : Production),
    Maintains Calm (lowerAll scope parent ts) Placed
  | [], scope, parent => by
    rw [lowerAll]
    exact maintains_pure _
  | t :: ts, scope, parent => by
    rw [lowerAll]
    exact (maintains_lower t _ _).bind fun _ ↦ (maintains_lowerAll ts _ _).bind fun _ ↦
      maintains_pure _

end

private theorem quiet_summary (a : Analysis) : Quiet .semantic a.summary := by
  refine Quiet.append (fun event he ↦ ?_) (by simp [Quiet])
  obtain ⟨s, _, hs⟩ := List.mem_filterMap.mp he
  unfold warning? at hs
  split at hs
  · cases hs
    exact ⟨rfl, by simp⟩
  · split at hs
    · cases hs
      exact ⟨rfl, by simp⟩
    · cases hs

end Analysis

/-- An analysis begins with nothing said but that it begins. -/
theorem Analysis.calm_begin : Calm begin :=
  ⟨List.forall_mem_singleton.mpr ⟨rfl, by decide⟩, List.forall_mem_singleton.mpr (by decide)⟩

/-- The analysis of a program that is there tells how it ends. -/
theorem analyze_stage (root : Tree Node) (others : Forest Node) :
    ((analyze (root :: others)).mapError CompileError.analysis).Stage .semantic := by
  have hlower := Analysis.maintains_lower root 0 none Analysis.begin Analysis.calm_begin
  unfold analyze
  dsimp only
  split
  · next tree progress hrun =>
    rw [hrun] at hlower
    exact Quiet.append hlower.1 (Analysis.quiet_summary _)
  · next e progress hrun =>
    rw [hrun] at hlower
    exact ⟨rfl, _, Analysis.errorEvent e, rfl, hlower.2.1, rfl, rfl, rfl, rfl, hlower.1⟩

/-! ### Code generation -/

namespace Assembly

/-- Only events of code generation have been said so far, and none that is an error. -/
def Calm (s : Assembly) : Prop := Quiet .codeGen s.events.toList

private theorem maintains_say (profile : Profile) (text : String) :
    Maintains Calm (say profile text) := by
  refine maintains_modify fun s hs ↦ ?_
  rw [Calm, Array.toList_push]
  exact Quiet.append hs (List.forall_mem_singleton.mpr ⟨rfl, by simp⟩)

private theorem maintains_intern (text : String) : Maintains Calm (intern text) := by
  refine maintains_get_bind fun s hs ↦ ?_
  split
  · exact maintains_pure _
  · split
    · exact maintains_throw trivial
    · refine Maintains.bind (maintains_set ?_) fun _ ↦ (maintains_say _ _).bind fun _ ↦
        maintains_pure _
      exact hs

private theorem maintains_cellsOf (i : Code) : Maintains Calm (cellsOf i) := by
  unfold cellsOf
  split
  · exact maintains_pure _
  · next v _ =>
    refine Maintains.bind ?_ fun _ ↦ maintains_pure _
    cases v with
    | const byte => exact maintains_pure _
    | text text => exact (maintains_intern text).bind fun _ ↦ maintains_pure _
    | jump index => exact maintains_pure _
  · exact maintains_pure _

private theorem maintains_write (cells : List Cell) : Maintains Calm (write cells) := by
  refine maintains_get_bind fun s hs ↦ ?_
  split
  · exact maintains_throw trivial
  · exact maintains_set hs

private theorem maintains_line (l : Line) : Maintains Calm (line l) := by
  cases l with
  | note profile text => exact maintains_say _ _
  | place text => exact (maintains_intern text).bind fun _ ↦ maintains_pure _
  | code i =>
    refine (maintains_cellsOf i).bind fun cells ↦ ?_
    dsimp only
    split
    · exact (maintains_say _ _).bind fun _ ↦ maintains_write cells
    · exact maintains_write cells

private theorem maintains_lines (ls : List Line) : Maintains Calm (lines ls) := by
  induction ls with
  | nil => exact maintains_pure _
  | cons l ls ih => exact (maintains_line l).bind fun _ ↦ ih

private theorem maintains_forM {α : Type} {f : α → Assembling PUnit} (h : ∀ a, Maintains Calm (f a))
    (xs : List α) : Maintains Calm (xs.forM f) := by
  induction xs with
  | nil => exact maintains_pure _
  | cons x xs ih => exact (h x).bind fun _ ↦ ih

private theorem maintains_finish (table : ScopeTable) (d : Draft) :
    Maintains Calm (finish table d) := by
  refine maintains_get_bind fun s hs ↦ (maintains_say _ _).bind fun _ ↦ ?_
  dsimp only
  split
  · exact maintains_throw trivial
  · refine (maintains_forM (fun _ ↦ maintains_say _ _) _).bind fun _ ↦ ?_
    split
    · exact maintains_throw trivial
    · exact (maintains_say _ _).bind fun _ ↦ (maintains_say _ _).bind fun _ ↦ maintains_pure _

private theorem maintains_assemble (table : ScopeTable) (d : Draft) (stopped : Option CodeError) :
    Maintains Calm (assemble table d stopped) := by
  refine (maintains_lines _).bind fun _ ↦ ?_
  split
  · exact maintains_throw trivial
  · exact maintains_finish table d

private theorem stage_report {x : Assembling Executable} (h : Maintains Calm x) :
    ((report x).mapError CompileError.code).Stage .codeGen := by
  have hx := h start (.nil _)
  unfold report
  split
  · next e s hrun =>
    rw [hrun] at hx
    exact hx
  · next e s hrun =>
    rw [hrun] at hx
    exact ⟨rfl, _, errorEvent e, rfl, hx.2, rfl, rfl, rfl, rfl, rfl⟩

end Assembly

/-- The code generator is a stage: it speaks quietly in its phase, except for its error. -/
theorem generate_stage (a : Analysis) :
    ((generate a).mapError CompileError.code).Stage .codeGen := by
  unfold generate
  split
  · exact Assembly.stage_report (maintains_throw trivial)
  · split <;> exact Assembly.stage_report (Assembly.maintains_assemble _ _ _)

/-! ### All stages -/

/-- A compilation speaks in the order of its stages and tells how it ends. -/
theorem compile_says (source : String) : (compile source).SaysFrom .lex := by
  refine (Scan.stage _).andThen .parse (by decide) fun tokens _ ↦ ?_
  refine (Session.stage _).andThen .semantic (by decide) fun program hparse ↦ ?_
  -- What is parsed is a program, so there is a tree to analyse.
  obtain ⟨rest, hprogram⟩ := parse_eq_ok.mp (Report.mapError_eq_ok.mp hparse)
  obtain ⟨p, _, rfl⟩ := Derivation.program_sound hprogram
  refine (analyze_stage _ _).andThen .codeGen (by decide) fun analysis _ ↦ ?_
  refine (generate_stage analysis).andThen .codeGen (by decide) fun image _ ↦ ?_
  exact Report.Stage.saysFrom (List.forall_mem_singleton.mpr ⟨rfl, by simp⟩)

private theorem countP_isError_eq_zero {events : List Event}
    (h : ∀ event ∈ events, event.severity ≠ .error) : events.countP Event.isError = 0 :=
  List.countP_eq_zero.mpr fun event he hs ↦ h event he (eq_of_beq hs)

/-- Exactly one event is an error if and only if an error is told. -/
theorem Told.error_iff {α : Type} {result : Except CompileError α} {events : List Event}
    (h : Told result events) : (∃ e, result = .error e) ↔ events.countP Event.isError = 1 := by
  cases result with
  | ok a =>
    rw [countP_isError_eq_zero h]
    simp
  | error e =>
    obtain ⟨said, last, rfl, hsaid, hlast⟩ := h
    have hone : [last].countP Event.isError = 1 := by
      simp [Event.isError, hlast.severity]
    rw [List.countP_append, countP_isError_eq_zero hsaid, hone]
    simp

/-- The events of a compilation are in the order of its stages. It fails exactly if one event is an
error, which is then the last one and tells the error; if it succeeds, no event is an error. -/
theorem compile_tells_errors (source : String) :
    ((compile source).events.Pairwise fun d e ↦ d.phase.rank ≤ e.phase.rank) ∧
      ((∃ e, (compile source).result = .error e) ↔
        (compile source).events.countP Event.isError = 1) ∧
      (∀ e, (compile source).result = .error e →
        ∃ said last, (compile source).events = said ++ [last] ∧ Event.Tells last e) ∧
      ∀ artifact, (compile source).result = .ok artifact →
        ∀ event ∈ (compile source).events, event.severity ≠ .error := by
  obtain ⟨_, hordered, htold⟩ := compile_says source
  refine ⟨hordered, htold.error_iff, fun e he ↦ ?_, fun artifact hok ↦ ?_⟩
  · rw [he] at htold
    obtain ⟨said, last, hevents, _, hlast⟩ := htold
    exact ⟨said, last, hevents, hlast⟩
  · rwa [hok] at htold

end OnePage
