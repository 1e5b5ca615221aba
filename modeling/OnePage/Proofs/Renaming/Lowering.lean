import OnePage.Proofs.Opening
import OnePage.Proofs.Renaming.Parsing

/-!
# Analysing renamed programs

Two programs that differ only in names and places are analysed alike: their resolved trees differ
only so, with the same symbols, and the symbols have the same types and are in the same scopes. That
names correspond one to one is needed where a name is looked up. Their order plays no part.
-/

namespace OnePage

variable {R : String → String → Prop}

/-- The labels stand for the same symbol and differ at most in places and names. -/
structure Resolved.Renamed (R : String → String → Prop) (r s : Resolved) : Prop where
  node : r.node.Renamed R s.node
  symbol : s.symbol = r.symbol

/-- The roots of two resolved trees have renamed labels. -/
def Tree.LabelsRenamed (R : String → String → Prop) (t u : Tree Resolved) : Prop :=
  t.label.Renamed R u.label

/-! ### Tables of scopes -/

/-- The tables have the same scopes and symbols, under names that correspond. -/
structure ScopeTable.Renamed (R : String → String → Prop) (table other : ScopeTable) : Prop where
  enclosures : other.enclosures = table.enclosures
  found : ∀ scope a b, R a b → other.lookupLocal? scope b = table.lookupLocal? scope a
  symbols : other.symbols.size = table.symbols.size
  types : other.typeOf = table.typeOf

namespace ScopeTable.Renamed

variable {table other next later : ScopeTable} {a b : String}

private theorem start : Renamed R .start .start where
  enclosures := rfl
  found scope a b _ := by
    cases scope <;> simp [lookupLocal?, ScopeTable.names, ScopeTable.start, Names.find?]
  symbols := rfl
  types := rfl

private theorem scopes (h : Renamed R table other) : other.scopes.size = table.scopes.size := by
  rw [← length_enclosures, h.enclosures, length_enclosures]

private theorem ancestors (h : Renamed R table other) (scope : ScopeId) :
    other.ancestors scope = table.ancestors scope := by
  rw [ancestors_eq, h.enclosures, ← ancestors_eq]

/-- Names that correspond are found in the same scope and stand for the same symbol. -/
theorem lookup (h : Renamed R table other) (hname : R a b) (scope : ScopeId) :
    other.lookup? scope b = table.lookup? scope a := by
  rw [lookup?, lookup?, h.ancestors]
  congr 1
  funext s
  exact h.found s a b hname

private theorem same (h : Renamed R table other) (k : Same table next) (l : Same other later) :
    Renamed R next later where
  enclosures := by simpa only [ScopeTable.enclosures, k.scopes, l.scopes] using h.enclosures
  found scope a b hname := by
    simpa only [lookupLocal?, ScopeTable.names, k.scopes, l.scopes] using h.found scope a b hname
  symbols := by rw [l.symbols, h.symbols, k.symbols]
  types := by rw [l.types, h.types, k.types]

private theorem adopt (h : Renamed R table other) (scope : ScopeId) :
    Renamed R (table.adopt scope).2 (other.adopt scope).2 where
  enclosures := by rw [enclosures_adopt, enclosures_adopt, h.enclosures, h.ancestors]
  found s a b hname := by
    simpa only [lookupLocal?, names_adopt] using h.found s a b hname
  symbols := h.symbols
  types := h.types

/-- Declaring names that correspond keeps all names in step, as no other name corresponds to
either. -/
theorem declare (hR : Relator.BiUnique R) (h : Renamed R table other) {x y : Token}
    (hname : R x.lexeme y.lexeme) (scope : ScopeId) (type : VarType) :
    Renamed R (table.declare scope type x).2 (other.declare scope type y).2 where
  enclosures := by rw [enclosures_declare, enclosures_declare, h.enclosures]
  found s a b hab := by
    have hiff : y.lexeme = b ↔ x.lexeme = a := (Relator.rel_eq hR hname hab).symm
    rw [lookupLocal?_declare, lookupLocal?_declare, h.scopes, h.symbols, h.found s a b hab]
    simp only [hiff]
  symbols := by simp [ScopeTable.declare, h.symbols]
  types := by
    funext symbol
    rw [typeOf_declare, typeOf_declare, h.symbols, h.types]

end ScopeTable.Renamed

/-! ### Trees -/

/-- Searches that answer alike on each tree find alike in the whole. -/
theorem Forest.Alike.findSome? {α β γ δ : Type} {S : Tree α → Tree β → Prop} {V : γ → δ → Prop}
    {f : Tree α → Option γ} {g : Tree β → Option δ} {ts : Forest α} {us : Forest β}
    (h : Forest.Alike S ts us) (hfg : ∀ t u, Tree.Alike S t u → Option.Rel V (f t) (g u)) :
    Option.Rel V (ts.findSome? f) (us.findSome? g) := by
  cases h with
  | nil => exact .none
  | @cons t u ts us ht hts =>
    rw [List.findSome?_cons, List.findSome?_cons]
    have hhead := hfg t u ht
    revert hhead
    generalize f t = x
    generalize g u = y
    intro hhead
    cases hhead with
    | none => exact hts.findSome? hfg
    | some hv => exact .some hv

private theorem Forest.Alike.filter {α β : Type} {S : Tree α → Tree β → Prop} {f : Tree α → Bool}
    {g : Tree β → Bool} {ts : Forest α} {us : Forest β} (h : Forest.Alike S ts us)
    (hfg : ∀ t u, Tree.Alike S t u → g u = f t) :
    Forest.Alike S (ts.filter f) (us.filter g) := by
  cases h with
  | nil => exact .nil
  | @cons t u ts us ht hts =>
    rw [List.filter_cons, List.filter_cons, hfg t u ht]
    split
    · exact .cons ht (hts.filter hfg)
    · exact hts.filter hfg

private theorem Forest.Alike.getLast? {α β : Type} {S : Tree α → Tree β → Prop} {ts : Forest α}
    {us : Forest β} (h : Forest.Alike S ts us) :
    Option.Rel (Tree.Alike S) ts.getLast? us.getLast? := by
  cases h with
  | nil => exact .none
  | cons ht hts =>
    cases hts with
    | nil => exact .some ht
    | cons hsecond hothers =>
      rw [List.getLast?_cons_cons, List.getLast?_cons_cons]
      exact (Forest.Alike.cons hsecond hothers).getLast?

mutual

private theorem Tree.Alike.labels {α β : Type} {S : Tree α → Tree β → Prop} {L : α → β → Prop}
    {t : Tree α} {u : Tree β} (hS : ∀ t u, S t u → L t.label u.label) (h : Tree.Alike S t u) :
    List.Forall₂ L t.labels u.labels := by
  cases h with
  | node hroot hchildren => exact .cons (hS _ _ hroot) (Forest.Alike.labels hS hchildren)

private theorem Forest.Alike.labels {α β : Type} {S : Tree α → Tree β → Prop} {L : α → β → Prop}
    {ts : Forest α} {us : Forest β} (hS : ∀ t u, S t u → L t.label u.label)
    (h : Forest.Alike S ts us) : List.Forall₂ L (Forest.labels ts) (Forest.labels us) := by
  cases h with
  | nil => exact .nil
  | cons ht hts => exact List.rel_append (Tree.Alike.labels hS ht) (Forest.Alike.labels hS hts)

end

namespace Node.Renamed

variable {a b : Node}

private theorem token? (h : a.Renamed R b) : Option.Rel (Token.Renamed R) a.token? b.token? := by
  cases h with
  | branch p => exact .none
  | leaf ht => exact .some ht
  | literal text p q => exact .none

private theorem branch_iff (h : a.Renamed R b) (p : Production) :
    b = .branch p ↔ a = .branch p := by
  cases h <;> simp

end Node.Renamed

/-- The tokens are renamed, and the first is of the kind that the nonterminal asks for. -/
def Token.RenamedAs (R : String → String → Prop) (p : Production) (t u : Token) : Prop :=
  t.Renamed R u ∧ ∀ kind, p.tokenKind? = some kind → t.kind = kind

section Tokens

variable {t u : Tree Node} {ts us : Forest Node}

private theorem terminal?_renamed (h : Tree.Alike (Tree.Renamed R) t u) :
    Option.Rel (Token.Renamed R) t.terminal? u.terminal? :=
  h.children.findSome? fun _ _ hchild ↦ hchild.root.label.token?

private theorem terminal?_renamedAs (h : Tree.Alike (Tree.Renamed R) t u) {p : Production}
    (hp : t.label = .branch p) :
    Option.Rel (Token.RenamedAs R p) t.terminal? u.terminal? := by
  have hkind := h.root.kind p
  have hfound := terminal?_renamed h
  generalize t.terminal? = x, u.terminal? = y at hkind hfound
  cases hfound with
  | none => exact .none
  | some ht => exact .some ⟨ht, fun kind hp' ↦ hkind kind _ hp hp' rfl⟩

private theorem lastTerminal?_renamed (h : Forest.Alike (Tree.Renamed R) ts us) (p : Production) :
    Option.Rel (Token.RenamedAs R p) (Analysis.lastTerminal? p ts)
      (Analysis.lastTerminal? p us) := by
  have hlast := (h.filter (f := (·.label == .branch p)) (g := (·.label == .branch p))
    fun _ _ ht ↦ by simp [ht.root.label.branch_iff]).getLast?
  unfold Analysis.lastTerminal?
  generalize hx : (ts.filter (·.label == .branch p)).getLast? = x,
    (us.filter (·.label == .branch p)).getLast? = y at hlast
  cases hlast with
  | none => exact .none
  | some ht =>
    have hlabel := (List.mem_filter.mp (List.mem_of_getLast? hx)).2
    exact terminal?_renamedAs ht (beq_iff_eq.mp hlabel)

private theorem operator?_renamed (h : Forest.Alike (Tree.Renamed R) ts us) :
    Option.Rel (Token.Renamed R) (Analysis.operator? ts) (Analysis.operator? us) := by
  refine h.findSome? fun t u ht ↦ ?_
  simp only [ht.root.label.branch_iff]
  split
  · exact terminal?_renamed ht
  · exact .none

/-- Characters are not names, so the text that they make up is the same. -/
theorem textOf_renamed {as bs : List Node} (h : List.Forall₂ (Node.Renamed R) as bs) :
    (Analysis.textOf bs).1 = (Analysis.textOf as).1 := by
  suffices hchars : ((bs.filterMap Node.token?).filter (·.kind == .char)).map (·.lexeme) =
      ((as.filterMap Node.token?).filter (·.kind == .char)).map (·.lexeme) from
    congrArg String.join hchars
  induction h with
  | nil => rfl
  | cons hab _ ih =>
    cases hab with
    | branch p => exact ih
    | literal text p q => exact ih
    | @leaf t u ht =>
      simp only [List.filterMap_cons, Node.token?, List.filter_cons, ht.kind]
      by_cases hchar : t.kind = .char
      · simp [hchar, ih, ht.lexeme (by simp [hchar])]
      · simp [hchar, ih]

end Tokens

/-! ### Types -/

section Types

variable {table other : ScopeTable}

private theorem leafType_renamed {r s : Resolved} (h : r.Renamed R s)
    (htypes : other.typeOf = table.typeOf) : s.leafType other = r.leafType table := by
  obtain ⟨node, symbol⟩ := r
  obtain ⟨node', symbol'⟩ := s
  obtain ⟨hnode, hsymbol⟩ := h
  dsimp only at hnode hsymbol
  subst hsymbol
  cases hnode with
  | branch p => rfl
  | literal text p q => rfl
  | leaf ht => simp only [Resolved.leafType, ht.kind, htypes]

private theorem branchType_renamed {r s : Resolved} (h : r.Renamed R s) (shared : VarType) :
    s.branchType shared = r.branchType shared := by
  obtain ⟨node, symbol⟩ := r
  obtain ⟨node', symbol'⟩ := s
  cases h.node with
  | branch p => rfl
  | literal text p q => rfl
  | leaf ht => simp only [Resolved.branchType, ht.kind]

mutual

private theorem type_renamed {t u : Tree Resolved} (htypes : other.typeOf = table.typeOf)
    (h : Tree.Alike (Tree.LabelsRenamed R) t u) :
    ResultsAlike (fun e f ↦ e.bare = f.bare) Eq (t.type table) (u.type other) := by
  cases h with
  | @node r s ts us hroot hchildren =>
    cases hchildren with
    | nil => exact .ok (leafType_renamed hroot htypes).symm
    | @cons t u ts us ht hts =>
      have hfirst := type_renamed htypes ht
      rw [Tree.type, Tree.type]
      generalize t.type table = first, u.type other = second at hfirst
      cases hfirst with
      | error he => exact .error he
      | @ok shared _ heq =>
        subst heq
        have hothers := haveType_renamed htypes shared hts
        dsimp only [bind, Except.bind]
        generalize Forest.haveType table shared ts = x, Forest.haveType other shared us = y
          at hothers
        cases hothers with
        | error he => exact .error he
        | ok _ => exact .ok (branchType_renamed hroot shared).symm

private theorem haveType_renamed {ts us : Forest Resolved} (htypes : other.typeOf = table.typeOf)
    (expected : VarType) (h : Forest.Alike (Tree.LabelsRenamed R) ts us) :
    ResultsAlike (fun e f ↦ e.bare = f.bare) Eq (Forest.haveType table expected ts)
      (Forest.haveType other expected us) := by
  cases h with
  | nil => exact .ok rfl
  | @cons t u ts us ht hts =>
    have hfirst := type_renamed htypes ht
    have hothers := haveType_renamed htypes expected hts
    rw [Forest.haveType, Forest.haveType]
    generalize t.type table = first, u.type other = second at hfirst
    cases hfirst with
    | error he => exact .error he
    | @ok found _ heq =>
      subst heq
      dsimp only [bind, Except.bind]
      split
      · exact hothers
      · exact .error rfl

end

end Types

/-! ### Steps -/

namespace Analysis

/-- Two steps of analyses go the same way, on tables that correspond. -/
def Alike {α β : Type} (R : String → String → Prop) (V : α → β → Prop) (x : Step α) (y : Step β) :
    Prop :=
  StepsAlike (fun p q : Progress ↦ p.table.Renamed R q.table)
    (fun e f : AnalysisError ↦ e.bare = f.bare) V x y

variable {α β : Type} {V : α → β → Prop}

private theorem alike_say (severity : Severity) (profile : Profile) (text other : String) :
    Alike R Eq (say severity profile text) (say severity profile other) :=
  StepsAlike.modify fun _ _ h ↦ h

private theorem alike_onTable {f : ScopeTable → α × ScopeTable} {g : ScopeTable → β × ScopeTable}
    (h : ∀ table other, ScopeTable.Renamed R table other →
      V (f table).1 (g other).1 ∧ ScopeTable.Renamed R (f table).2 (g other).2) :
    Alike R V (onTable f) (onTable g) :=
  StepsAlike.modifyGet fun _ _ hs ↦ h _ _ hs

private theorem alike_tableNow : Alike R (ScopeTable.Renamed R) tableNow tableNow :=
  StepsAlike.get.bind fun _ _ h ↦ StepsAlike.pure h

private theorem alike_branch {a b : Node} {x y : Step (Forest Resolved)} (hab : a.Renamed R b)
    (h : Alike R (Forest.Alike (Tree.LabelsRenamed R)) x y) :
    Alike R (Tree.Alike (Tree.LabelsRenamed R)) (branch a x) (branch b y) := by
  refine (alike_say _ _ _ _).next fun _ ↦ h.bind fun ts us hts ↦ StepsAlike.pure ?_
  exact .node ⟨hab, rfl⟩ hts

private theorem alike_check {t u : Tree Resolved} (h : Tree.Alike (Tree.LabelsRenamed R) t u) :
    Alike R Eq (check t) (check u) := by
  refine alike_tableNow.bind fun table other htable ↦ ?_
  have htype := type_renamed htable.types h
  generalize t.type table = first, u.type other = second at htype
  cases htype with
  | error he => exact StepsAlike.throw he
  | ok _ => exact alike_say _ _ _ _

private theorem alike_declaration (hR : Relator.BiUnique R) {ts us : Forest Node}
    (h : Forest.Alike (Tree.Renamed R) ts us) (scope : ScopeId) :
    Alike R (Forest.Alike (Tree.LabelsRenamed R)) (declaration scope ts)
      (declaration scope us) := by
  have htype := lastTerminal?_renamed h .typeName
  have hname := lastTerminal?_renamed h .name
  unfold declaration
  generalize lastTerminal? .typeName ts = a, lastTerminal? .typeName us = b at htype
  generalize lastTerminal? .name ts = x, lastTerminal? .name us = y at hname
  cases htype with
  | none => exact StepsAlike.pure .nil
  | @some type type' htype =>
    cases hname with
    | none => exact StepsAlike.pure .nil
    | @some name name' hname =>
      have hlexeme : R name.lexeme name'.lexeme := hname.1.name (hname.2 _ rfl)
      have hword : type'.lexeme = type.lexeme :=
        htype.1.lexeme (by rw [htype.2 _ rfl]; decide)
      refine alike_tableNow.bind fun table other htable ↦ ?_
      rw [htable.found scope _ _ hlexeme]
      cases table.lookupLocal? scope name.lexeme with
      | some existing => exact StepsAlike.throw rfl
      | none =>
        refine (alike_say _ _ _ _).next fun _ ↦ ?_
        rw [hword]
        refine (alike_onTable fun table other htable ↦ ?_).next fun symbol ↦ ?_
        · exact ⟨htable.symbols.symm, htable.declare hR hlexeme scope _⟩
        · exact StepsAlike.pure (.cons (.node ⟨.leaf htype.1, rfl⟩ .nil)
            (.single (.node ⟨.leaf hname.1, rfl⟩ .nil)))

private theorem alike_identifier {t u : Token} (h : t.Renamed R u) (hkind : t.kind = .identifier)
    (scope : ScopeId) (isTarget : Bool) :
    Alike R (Tree.Alike (Tree.LabelsRenamed R)) (identifier scope isTarget t)
      (identifier scope isTarget u) := by
  refine alike_tableNow.bind fun table other htable ↦ ?_
  rw [htable.lookup (h.name hkind)]
  cases table.lookup? scope t.lexeme with
  | none => exact StepsAlike.throw rfl
  | some symbol =>
    refine (alike_onTable fun table other htable ↦ ?_).next fun _ ↦
      StepsAlike.pure (.node ⟨.leaf h, rfl⟩ .nil)
    refine ⟨rfl, ?_⟩
    cases isTarget with
    | true =>
      exact htable.same (ScopeTable.same_markInitialized _ _) (ScopeTable.same_markInitialized _ _)
    | false => exact htable.same (ScopeTable.same_markUsed _ _) (ScopeTable.same_markUsed _ _)

/-- A token that stands for itself stays, or there is none. -/
theorem alike_terminal {p : Production} {t u : Tree Node}
    (h : Tree.Alike (Tree.Renamed R) t u) (hp : t.label = .branch p)
    {f g : Token → Step (Forest Resolved)}
    (hfg : ∀ a b, Token.RenamedAs R p a b →
      Alike R (Forest.Alike (Tree.LabelsRenamed R)) (f a) (g b)) :
    Alike R (Forest.Alike (Tree.LabelsRenamed R))
      (match t.terminal? with
        | some token => f token
        | none => return [])
      (match u.terminal? with
        | some token => g token
        | none => return []) := by
  have hfound := terminal?_renamedAs h hp
  generalize t.terminal? = x, u.terminal? = y at hfound
  cases hfound with
  | none => exact StepsAlike.pure .nil
  | some hab => exact hfg _ _ hab

mutual

private theorem alike_lower (hR : Relator.BiUnique R) {t u : Tree Node}
    (h : Tree.Alike (Tree.Renamed R) t u) (scope : ScopeId) (parent : Option Production) :
    Alike R (Forest.Alike (Tree.LabelsRenamed R)) (lower scope parent t)
      (lower scope parent u) := by
  have htree := h
  cases h with
  | @node a b ts us hroot hchildren =>
    cases hroot.label with
    | leaf _ =>
      rw [lower, lower]
      exact StepsAlike.pure .nil
    | literal _ _ _ =>
      rw [lower, lower]
      exact StepsAlike.pure .nil
    | branch p =>
      have hall := alike_lowerAll hR hchildren
      cases p with
      | block =>
        rw [lower, lower]
        refine (alike_onTable fun table other htable ↦ ?_).next fun inner ↦ ?_
        · exact ⟨htable.scopes.symm, htable.adopt scope⟩
        · exact (alike_branch (.branch _) (hall inner _)).bind fun _ _ ht ↦
            StepsAlike.pure (.single ht)
      | varDecl =>
        rw [lower, lower]
        exact (alike_branch (.branch _) (alike_declaration hR hchildren scope)).bind fun _ _ ht ↦
          StepsAlike.pure (.single ht)
      | assignmentStatement | printStatement =>
        rw [lower, lower]
        exact (alike_branch (.branch _) (hall scope _)).bind fun _ _ ht ↦
          (alike_check ht).next fun _ ↦ StepsAlike.pure (.single ht)
      | ifStatement | whileStatement =>
        rw [lower, lower]
        exact (alike_branch (.branch _) (hall scope _)).bind fun _ _ ht ↦
          StepsAlike.pure (.single ht)
      | stringExpr =>
        have htext := textOf_renamed (hchildren.labels fun _ _ ht ↦ ht.label)
        rw [lower, lower]
        generalize textOf (Forest.labels ts) = x, textOf (Forest.labels us) = y at htext
        obtain ⟨text, p⟩ := x
        obtain ⟨text', q⟩ := y
        obtain rfl : text' = text := htext
        exact (alike_say _ _ _ _).next fun _ ↦
          StepsAlike.pure (.single (.node ⟨.literal text' p q, rfl⟩ .nil))
      | intExpr | boolExpr =>
        rw [lower, lower]
        have hoperator := operator?_renamed hchildren
        generalize operator? ts = x, operator? us = y at hoperator
        cases hoperator with
        | none => exact hall scope _
        | some hab =>
          exact (alike_say _ _ _ _).next fun _ ↦
            (alike_branch (.leaf hab) (hall scope _)).bind fun _ _ ht ↦
              (alike_check ht).next fun _ ↦ StepsAlike.pure (.single ht)
      | name =>
        rw [lower, lower]
        refine alike_terminal htree rfl fun a b hab ↦ ?_
        exact (alike_identifier hab.1 (hab.2 _ rfl) scope _).bind fun _ _ ht ↦
          StepsAlike.pure (.single ht)
      | digit | boolVal | typeName =>
        rw [lower, lower]
        exact alike_terminal htree rfl fun a b hab ↦
          StepsAlike.pure (.single (.node ⟨.leaf hab.1, rfl⟩ .nil))
      | program | statementList | statement | expr | charList | boolOp | intOp =>
        rw [lower, lower]
        exact (alike_say _ _ _ _).next fun _ ↦ hall scope _

private theorem alike_lowerAll (hR : Relator.BiUnique R) {ts us : Forest Node}
    (h : Forest.Alike (Tree.Renamed R) ts us) (scope : ScopeId) (parent : Production) :
    Alike R (Forest.Alike (Tree.LabelsRenamed R)) (lowerAll scope parent ts)
      (lowerAll scope parent us) := by
  cases h with
  | nil =>
    rw [lowerAll]
    exact StepsAlike.pure .nil
  | cons ht hts =>
    rw [lowerAll, lowerAll]
    refine (alike_lower hR ht scope (some parent)).bind fun _ _ hfirst ↦ ?_
    refine (alike_lowerAll hR hts scope parent).bind fun _ _ hothers ↦ ?_
    exact StepsAlike.pure (hfirst.append hothers)

end

end Analysis

/-- Analyses of renamed programs correspond: the trees are renamed, and the symbols have the same
types. -/
structure Analysis.Renamed (R : String → String → Prop) (a b : Analysis) : Prop where
  tree : Forest.Alike (Tree.LabelsRenamed R) a.tree b.tree
  types : b.table.typeOf = a.table.typeOf

/-- Renaming the variables of a program renames its analysis, or leaves its error the same but for
the name and place. -/
theorem analyze_renamed (hR : Relator.BiUnique R) {program other : Forest Node}
    (h : Forest.Alike (Tree.Renamed R) program other) :
    ResultsAlike (fun e f ↦ e.bare = f.bare) (Analysis.Renamed R) (analyze program).result
      (analyze other).result := by
  cases h with
  | nil => exact .error rfl
  | @cons root root' _ _ hroot _ =>
    have hrun := Analysis.alike_lower hR hroot 0 none Analysis.begin Analysis.begin
      ScopeTable.Renamed.start
    unfold analyze
    dsimp only
    generalize (Analysis.lower 0 none root).run Analysis.begin = first,
      (Analysis.lower 0 none root').run Analysis.begin = second at hrun
    cases hrun with
    | error he _ => exact .error he
    | ok htree htable => exact .ok ⟨htree, htable.types⟩

end OnePage
