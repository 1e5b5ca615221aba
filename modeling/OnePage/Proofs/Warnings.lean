import OnePage.Proofs.Reporting
import OnePage.Proofs.Usage

/-!
# Warnings

The analysis warns of the symbols that are not both used and initialized, once of each, where it is
declared. The marks of a symbol are what the resolved program shows: it is initialized if something
is assigned to it, and it is used if an identifier that is neither declared nor assigned to stands
for it. The last thing the analysis says is how many warnings there are.
-/

namespace OnePage

/-- The entry of a symbol tells where the tree declares it, whether the tree assigns to it and
whether the tree uses it. -/
structure Tree.Shows (root : Tree Resolved) (symbol : SymbolId) (entry : Symbol) : Prop where
  declared : ∃ d : Declaration, d.tree ∈ root.subtrees ∧ d.symbol = symbol ∧
    entry.name = d.name.lexeme ∧ entry.token = d.name
  initialized : entry.initialized = true ↔ root.Assigns symbol
  used : entry.used = true ↔ root.Uses symbol

namespace Analysis

/-- What is said of a symbol that is not both used and initialized. -/
def complaint (s : Symbol) : Event where
  phase := .semantic
  severity := .warning
  text := if s.used then "variable '" ++ s.name ++ "' was used but not initialized"
    else "unused variable '" ++ s.name ++ "'"
  position := some s.token.position

/-- What is said when the analysis is complete. -/
def completion (count : Nat) : Event where
  phase := .semantic
  severity := .message
  text := "semantic analysis completed with " ++ toString count ++ " warning(s)"

private theorem warning?_eq (s : Symbol) :
    warning? s = if !(s.used && s.initialized) then some (complaint s) else none := by
  unfold warning? complaint
  cases s.used <;> cases s.initialized <;> rfl

private theorem warnings_eq (table : ScopeTable) : warnings table =
    (table.listed.filter fun s ↦ !(s.used && s.initialized)).map complaint := by
  rw [warnings, ← List.filterMap_eq_map, List.filterMap_filter]
  congr 1
  funext s
  exact warning?_eq s

/-- There is one warning for each symbol that is not both used and initialized, in some order. -/
theorem warnings_perm {table : ScopeTable} (h : table.Tallied) : (warnings table).Perm
    ((table.symbols.toList.filter fun s ↦ !(s.used && s.initialized)).map complaint) := by
  rw [warnings_eq]
  exact (h.listed_perm.filter _).map _

private theorem filter_isWarning_warnings (table : ScopeTable) :
    (warnings table).filter Event.isWarning = warnings table := by
  rw [warnings_eq, List.filter_eq_self]
  intro event he
  obtain ⟨s, _, rfl⟩ := List.mem_map.mp he
  rfl

/-- The warnings about symbols are the only ones in what is said of a finished analysis. -/
theorem filter_isWarning_summary (a : Analysis) :
    a.summary.filter Event.isWarning = warnings a.table := by
  rw [summary, List.filter_append, filter_isWarning_warnings]
  simp [Event.isWarning]

private theorem summary_eq (a : Analysis) :
    ∃ said, a.summary = said ++ [completion (warnings a.table).length] := by
  unfold summary
  exact ⟨warnings a.table ++ [_, _], (List.append_assoc _ [_, _] [_]).symm⟩

end Analysis

section Analyses

variable {program : Forest Node} {a : Analysis}

/-- An analysis that succeeds says its summary last, and nothing that it said before is a
warning. -/
theorem analyze_says (h : (analyze program).result = .ok a) : ∃ said,
    (analyze program).events = said ++ a.summary ∧ said.filter Event.isWarning = [] := by
  cases program with
  | nil => cases h
  | cons root others =>
    have hlower := Analysis.maintains_lower root 0 none Analysis.begin Analysis.calm_begin
    unfold analyze at h ⊢
    dsimp only at h ⊢
    split at h
    · next tree progress hrun =>
      rw [hrun] at hlower
      cases h
      refine ⟨progress.events.toList, rfl, List.filter_eq_nil_iff.mpr fun event he hwarning ↦ ?_⟩
      exact hlower.2 event he (eq_of_beq hwarning)
    · cases h

/-- The analysis of a derived program marks what the program assigns to and what it uses. -/
theorem analyze_marked {p : ProgramPhrase} (h : (analyze [p.tree]).result = .ok a) :
    Analysis.Marked .start a.tree a.table := by
  obtain ⟨_, _, hprogram, hgives⟩ := analyze_gives h
  obtain ⟨rfl, _⟩ := List.cons.inj hprogram
  have haims : Analysis.AimsBelow none [p.tree] := ⟨p.derivation.aims, nofun⟩
  exact Analysis.marked_lower p.tree (by decide) ScopeTable.filed_start haims hgives

/-- Every entry is that of a declaration in the tree. -/
theorem Analysis.Opened.declaration {root : Tree Resolved} {table : ScopeTable}
    (h : Opened 0 .start [root] table) {symbol : SymbolId} {entry : Symbol}
    (hentry : table.symbols[symbol]? = some entry) :
    ∃ d : Declaration, d.tree ∈ root.subtrees ∧ d.symbol = symbol ∧
      entry.name = d.name.lexeme ∧ entry.token = d.name := by
  have hmem := ScopeTable.mem_declared.mpr ⟨entry, hentry, rfl⟩
  rw [h.symbols] at hmem
  obtain ⟨⟨t, around⟩, hplace, hd⟩ := List.mem_filterMap.mp hmem
  obtain ⟨d, hdeclaration, heq⟩ := Option.map_eq_some_iff.mp hd
  obtain ⟨hdeclared, hsymbol⟩ := Prod.mk.inj heq
  have ht := List.mem_map_of_mem (f := Prod.fst) hplace
  rw [Forest.enclosed_singleton, Tree.map_fst_enclosed, Tree.declaration?_eq_some.mp hdeclaration]
    at ht
  exact ⟨d, ht, hsymbol, (congrArg Symbol.name hdeclared).symm,
    (congrArg Symbol.token hdeclared).symm⟩

/-- The entries of a program tell what the program does with its symbols. -/
theorem Analysis.Marked.shows {root : Tree Resolved} {table : ScopeTable}
    (h : Marked .start [root] table) (hopened : Opened 0 .start [root] table)
    {symbol : SymbolId} {entry : Symbol} (hentry : table.symbols[symbol]? = some entry) :
    root.Shows symbol entry where
  declared := hopened.declaration hentry
  initialized := by
    have hmark : table.marked Symbol.initialized symbol = entry.initialized :=
      ScopeTable.marked_of_getElem? hentry
    rw [← hmark, h.initialized]
    simp [ScopeTable.marked, ScopeTable.start]
  used := by
    have hmark : table.marked Symbol.used symbol = entry.used :=
      ScopeTable.marked_of_getElem? hentry
    rw [← hmark, h.used]
    simp [ScopeTable.marked, ScopeTable.start]

end Analyses

/-! ### What is said in a phase -/

/-- The events of a phase. -/
def Report.eventsOf {ε α : Type} (r : Report ε α) (phase : Phase) : List Event :=
  r.events.filter (·.phase == phase)

section Phases

variable {α β : Type} {phase : Phase} {r : Report CompileError α}

private theorem Report.Stage.eventsOf_self (h : r.Stage phase) : r.eventsOf phase = r.events :=
  List.filter_eq_self.mpr fun event he ↦ beq_iff_eq.mpr (h.phase_eq event he)

private theorem Report.Stage.eventsOf_other {other : Phase} (h : r.Stage phase)
    (hne : phase ≠ other) :
    r.eventsOf other = [] :=
  List.filter_eq_nil_iff.mpr fun event he hother ↦
    hne ((h.phase_eq event he).symm.trans (eq_of_beq hother))

private theorem Report.eventsOf_earlier (next : Phase) (h : r.SaysFrom next)
    (hlt : phase.rank < next.rank) : r.eventsOf phase = [] := by
  refine List.filter_eq_nil_iff.mpr fun event he hphase ↦ ?_
  have hlater := h.later event he
  rw [eq_of_beq hphase] at hlater
  omega

private theorem Report.eventsOf_andThen {f : α → Report CompileError β} {a : α}
    (h : r.result = .ok a) :
    (r.andThen f).eventsOf phase = r.eventsOf phase ++ (f a).eventsOf phase := by
  rw [eventsOf, andThen, h]
  exact List.filter_append ..

end Phases

/-- What a compilation says in the phase of the analysis is what the analysis says. -/
theorem eventsOf_semantic {source : String} {tokens : List Token} {root : Tree Node}
    {others : Forest Node} {a : Analysis} (hscan : (Scan.ofSource source).result = .ok tokens)
    (hparse : (parse tokens).result = .ok (root :: others))
    (hanalyze : (analyze (root :: others)).result = .ok a) :
    (compile source).eventsOf .semantic = (analyze (root :: others)).events := by
  have hscanned : ((Scan.ofSource source).report.mapError CompileError.scan).eventsOf
      .semantic = [] := (Scan.stage _).eventsOf_other (by decide)
  have hparsed : ((parse tokens).mapError CompileError.parse).eventsOf .semantic = [] :=
    (Session.stage _).eventsOf_other (by decide)
  rw [compile, Report.eventsOf_andThen (Report.mapError_eq_ok.mpr hscan), hscanned,
    Report.eventsOf_andThen (Report.mapError_eq_ok.mpr hparse), hparsed,
    Report.eventsOf_andThen (Report.mapError_eq_ok.mpr hanalyze),
    (analyze_stage _ _).eventsOf_self, Report.eventsOf_earlier .codeGen _ (by decide)]
  · exact List.append_nil _
  · refine (generate_stage a).andThen .codeGen (by decide) fun image _ ↦ ?_
    exact Report.Stage.saysFrom (List.forall_mem_singleton.mpr ⟨rfl, by simp⟩)

/-- An analysis that succeeds marks as initialized just the symbols that the resolved program
assigns to, and as used just those that it uses. It warns of each symbol that is not marked as both,
once and where the symbol is declared, and of nothing else. It says last how many warnings there
are. -/
theorem analyze_warns_exactly (source : String) (tokens : List Token) (program : Forest Node)
    (a : Analysis) (hscan : (Scan.ofSource source).result = .ok tokens)
    (hparse : (parse tokens).result = .ok program)
    (hanalyze : (analyze program).result = .ok a) :
    (∃ root, a.tree = [root] ∧ ∀ symbol entry, a.table.symbols[symbol]? = some entry →
      root.Shows symbol entry) ∧
    (compile source).eventsOf .semantic = (analyze program).events ∧
    ((analyze program).events.filter Event.isWarning).Perm
      ((a.table.symbols.toList.filter fun s ↦ !(s.used && s.initialized)).map
        Analysis.complaint) ∧
    ∃ said, (analyze program).events = said ++
      [Analysis.completion ((analyze program).events.countP Event.isWarning)] := by
  obtain ⟨root, htree, _⟩ := stages_typed hscan hparse hanalyze
  obtain ⟨rest, hprogram⟩ := parse_eq_ok.mp hparse
  obtain ⟨p, _, rfl⟩ := Derivation.program_sound hprogram
  have hmarked := analyze_marked hanalyze
  have hopened := analyze_opened hanalyze
  obtain ⟨said, hevents, hsaid⟩ := analyze_says hanalyze
  have hwarnings : (analyze [p.tree]).events.filter Event.isWarning =
      Analysis.warnings a.table := by
    rw [hevents, List.filter_append, hsaid, Analysis.filter_isWarning_summary, List.nil_append]
  refine ⟨⟨root, htree, ?_⟩, eventsOf_semantic hscan hparse hanalyze, ?_, ?_⟩
  · intro symbol entry hentry
    rw [htree] at hmarked hopened
    exact hmarked.shows hopened hentry
  · rw [hwarnings]
    exact Analysis.warnings_perm (hmarked.tallied ScopeTable.tallied_start)
  · obtain ⟨front, hsummary⟩ := Analysis.summary_eq a
    refine ⟨said ++ front, ?_⟩
    rw [List.countP_eq_length_filter, hwarnings, hevents, hsummary, List.append_assoc]

/-- A source with a variable of each sort: assigned to and used, only used, only assigned to, and
neither. -/
def halfUsed : String :=
  "\x7bint a a = 1 int b print(b) int c c = a \x7bint a\x7d\x7d$"

/-- Three of its four variables are warned of. -/
theorem analyze_warns_exactly_halfUsed : ∃ tokens program a,
    (Scan.ofSource halfUsed).result = .ok tokens ∧ (parse tokens).result = .ok program ∧
    (analyze program).result = .ok a ∧
    a.table.symbols.toList.map (fun s ↦ (s.initialized, s.used)) =
      [(true, true), (false, true), (true, false), (false, false)] ∧
    (∃ root, a.tree = [root] ∧ ∀ symbol entry, a.table.symbols[symbol]? = some entry →
      root.Shows symbol entry) ∧
    (compile halfUsed).eventsOf .semantic = (analyze program).events ∧
    ((analyze program).events.filter Event.isWarning).Perm
      ((a.table.symbols.toList.filter fun s ↦ !(s.used && s.initialized)).map
        Analysis.complaint) ∧
    ∃ said, (analyze program).events = said ++
      [Analysis.completion ((analyze program).events.countP Event.isWarning)] := by
  have hmarks : (analyzed? halfUsed).map
      (fun a ↦ a.table.symbols.toList.map fun s ↦ (s.initialized, s.used)) =
        some [(true, true), (false, true), (true, false), (false, false)] := by
    decide +kernel
  obtain ⟨a, hanalyzed, hmarks⟩ := Option.map_eq_some_iff.mp hmarks
  obtain ⟨_, _, hscan, hparse, hanalyze⟩ := analyzed?_eq_some hanalyzed
  exact ⟨_, _, a, hscan, hparse, hanalyze, hmarks,
    analyze_warns_exactly _ _ _ _ hscan hparse hanalyze⟩

end OnePage
