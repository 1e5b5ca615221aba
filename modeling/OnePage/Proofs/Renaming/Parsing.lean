import OnePage.Proofs.Renaming.Alike

/-!
# Reading renamed tokens

Two lists of tokens that differ only in the names of their variables and in places are read alike:
as trees that differ only so, or not at all and for the same reason.
-/

namespace OnePage

/-- The tokens differ at most in their places and, for identifiers, in names that correspond. -/
structure Token.Renamed (R : String → String → Prop) (t u : Token) : Prop where
  kind : u.kind = t.kind
  name : t.kind = .identifier → R t.lexeme u.lexeme
  lexeme : t.kind ≠ .identifier → u.lexeme = t.lexeme

/-- The labels differ at most in places and in names that correspond. -/
inductive Node.Renamed (R : String → String → Prop) : Node → Node → Prop where
  | branch (p : Production) : Node.Renamed R (.branch p) (.branch p)
  | leaf {t u : Token} : t.Renamed R u → Node.Renamed R (.leaf t) (.leaf u)
  | literal (text : String) (p q : Position) : Node.Renamed R (.literal text p) (.literal text q)

/-- The kind of the token below a nonterminal that stands for one token. -/
def Production.tokenKind? : Production → Option Kind
  | name => some .identifier
  | typeName => some .typeWord
  | digit => some .digit
  | boolVal => some .boolVal
  | boolOp => some .boolOp
  | intOp => some .intOp
  | _ => none

/-- The labels of two trees are renamed, and a nonterminal for one token has a token of its kind. -/
structure Tree.Renamed (R : String → String → Prop) (t u : Tree Node) : Prop where
  label : t.label.Renamed R u.label
  kind : ∀ p kind token, t.label = .branch p → p.tokenKind? = some kind →
    t.terminal? = some token → token.kind = kind

namespace Parser

variable {R : String → String → Prop} {ts us : List Token}

/-- Renamed tokens are read as renamed trees. -/
def Uniform (R : String → String → Prop) (p : Parser) : Prop :=
  ∀ ts us, List.Forall₂ (Token.Renamed R) ts us →
    ResultsAlike (fun f g ↦ f.error.bare = g.error.bare)
      (fun a b ↦ Forest.Alike (Tree.Renamed R) a.1 b.1 ∧ List.Forall₂ (Token.Renamed R) a.2 b.2)
      (p ts) (p us)

private theorem nextKind_renamed (h : List.Forall₂ (Token.Renamed R) ts us) :
    nextKind us = nextKind ts := by
  cases h with
  | nil => rfl
  | cons ht _ => exact congrArg some ht.kind

private theorem uniform_unexpected (expected : String) : Uniform R (unexpected expected) := by
  intro ts us h
  cases h with
  | nil => exact .error rfl
  | cons _ _ => exact .error rfl

private theorem uniform_nothing : Uniform R nothing := fun _ _ h ↦ .ok ⟨.nil, h⟩

private theorem alike_leaf {t u : Token} (h : t.Renamed R u) :
    Tree.Alike (Tree.Renamed R) (.leaf (.leaf t)) (.leaf (.leaf u)) := by
  refine .node ⟨.leaf h, ?_⟩ .nil
  intro p kind token hlabel
  cases hlabel

private theorem uniform_token (kind : Kind) : Uniform R (token kind) := by
  intro ts us h
  cases h with
  | nil => exact .error rfl
  | @cons t u ts us ht hts =>
    rw [token, token, ht.kind]
    split
    · exact .ok ⟨.single (alike_leaf ht), hts⟩
    · exact .error rfl

private theorem uniform_tokensOf (kind : Kind) : Uniform R (tokensOf kind) := by
  intro ts us h
  refine .ok ?_
  dsimp only
  induction h with
  | nil => exact ⟨.nil, .nil⟩
  | @cons t u ts us ht hts ih =>
    rw [List.takeWhile_cons, List.takeWhile_cons, List.dropWhile_cons, List.dropWhile_cons,
      ht.kind]
    split
    · exact ⟨.cons (alike_leaf ht) ih.1, ih.2⟩
    · exact ⟨.nil, .cons ht hts⟩

private theorem uniform_seq {ps : List Parser} (h : ∀ p ∈ ps, Uniform R p) :
    Uniform R (seq ps) := by
  induction ps with
  | nil => exact uniform_nothing
  | cons p ps ih =>
    obtain ⟨hp, hps⟩ := List.forall_mem_cons.mp h
    intro ts us hts
    rw [seq]
    dsimp only
    have halike := hp ts us hts
    generalize p ts = first, p us = other at halike
    cases halike with
    | error he => exact .error he
    | @ok a b hab =>
      dsimp only
      have hmore := ih hps a.2 b.2 hab.2
      generalize seq ps a.2 = later, seq ps b.2 = others at hmore
      cases hmore with
      | error he => exact .error he
      | ok hcd => exact .ok ⟨hab.1.append hcd.1, hcd.2⟩

private theorem uniform_branch {production : Production} {children : Parser}
    (hp : production.tokenKind? = none) (h : Uniform R children) :
    Uniform R (branch production children) := by
  intro ts us hts
  unfold branch
  have halike := h ts us hts
  generalize children ts = first, children us = other at halike
  cases halike with
  | error he => exact .error he
  | ok hab =>
    refine .ok ⟨.single (.node ⟨.branch production, ?_⟩ hab.1), hab.2⟩
    intro p kind token hlabel hkind
    cases hlabel
    simp [hp] at hkind

private theorem uniform_terminal {production : Production} {kind : Kind}
    (hp : production.tokenKind? = some kind) : Uniform R (terminal production kind) := by
  intro ts us hts
  rw [terminal, branch, branch]
  cases hts with
  | nil => exact .error rfl
  | @cons t u ts us ht hts =>
    rw [token, token, ht.kind]
    by_cases hkind : t.kind = kind
    · rw [if_pos hkind, if_pos hkind]
      refine .ok ⟨.single (.node ⟨.branch production, ?_⟩ (.single (alike_leaf ht))), hts⟩
      intro p other found hlabel hother hfound
      cases hlabel
      cases hfound
      rw [hkind]
      exact Option.some.inj (hp.symm.trans hother)
    · rw [if_neg hkind, if_neg hkind]
      exact .error rfl

end Parser

namespace Derivation

open OnePage.Parser

variable {R : String → String → Prop}

private theorem uniform_name : Uniform R name := uniform_terminal rfl

private theorem uniform_charList : Uniform R charList := by
  intro ts us h
  rw [charList, charList, nextKind_renamed h]
  split
  · exact uniform_branch rfl (uniform_tokensOf .char) ts us h
  · exact uniform_nothing ts us h

private theorem uniform_stringExpr : Uniform R stringExpr := by
  refine uniform_branch rfl (uniform_seq ?_)
  simp [uniform_token, uniform_charList]

private theorem uniform_varDecl : Uniform R varDecl := by
  have htype : Uniform R (terminal .typeName .typeWord) := uniform_terminal rfl
  refine uniform_branch rfl (uniform_seq ?_)
  simp [htype, uniform_name]

mutual

private theorem uniform_expr : ∀ depth, Uniform R (expr depth)
  | 0 => uniform_unexpected _
  | depth + 1 => by
    refine uniform_branch rfl fun ts us h ↦ ?_
    rw [nextKind_renamed h]
    split
    · exact uniform_intExpr depth ts us h
    · exact uniform_stringExpr ts us h
    · exact uniform_boolExpr depth ts us h
    · exact uniform_boolExpr depth ts us h
    · exact uniform_name ts us h
    · exact uniform_unexpected _ ts us h

private theorem uniform_intExpr : ∀ depth, Uniform R (intExpr depth)
  | 0 => uniform_unexpected _
  | depth + 1 => by
    have hexpr := uniform_expr depth
    have hdigit : Uniform R (terminal .digit .digit) := uniform_terminal rfl
    have hplus : Uniform R (terminal .intOp .intOp) := uniform_terminal rfl
    have hmore : Uniform R fun tokens ↦
        if nextKind tokens = some .intOp then seq [terminal .intOp .intOp, expr depth] tokens
        else nothing tokens := by
      intro ts us h
      dsimp only
      rw [nextKind_renamed h]
      split
      · refine uniform_seq ?_ ts us h
        simp [hplus, hexpr]
      · exact uniform_nothing ts us h
    refine uniform_branch rfl (uniform_seq ?_)
    simpa [hdigit] using hmore

private theorem uniform_boolExpr : ∀ depth, Uniform R (boolExpr depth)
  | 0 => uniform_unexpected _
  | depth + 1 => by
    have hexpr := uniform_expr depth
    have hsign : Uniform R (terminal .boolOp .boolOp) := uniform_terminal rfl
    refine uniform_branch rfl fun ts us h ↦ ?_
    rw [nextKind_renamed h]
    split
    · exact uniform_terminal rfl ts us h
    · refine uniform_seq ?_ ts us h
      simp [hsign, uniform_token, hexpr]

end

private theorem uniform_printStatement (depth : Nat) : Uniform R (printStatement depth) := by
  refine uniform_branch rfl (uniform_seq ?_)
  simp [uniform_token, uniform_expr]

private theorem uniform_assignmentStatement (depth : Nat) :
    Uniform R (assignmentStatement depth) := by
  refine uniform_branch rfl (uniform_seq ?_)
  simp [uniform_name, uniform_token, uniform_expr]

mutual

private theorem uniform_block : ∀ depth, Uniform R (block depth)
  | 0 => uniform_unexpected _
  | depth + 1 => by
    have hlist := uniform_statementList depth
    refine uniform_branch rfl (uniform_seq ?_)
    simp [uniform_token, hlist]

private theorem uniform_statementList : ∀ depth, Uniform R (statementList depth)
  | 0 => uniform_unexpected _
  | depth + 1 => by
    have hstatement := uniform_statement depth
    have hlist := uniform_statementList depth
    intro ts us h
    rw [statementList]
    dsimp only
    rw [nextKind_renamed h]
    split
    · exact uniform_nothing ts us h
    · exact uniform_nothing ts us h
    · refine uniform_branch rfl (uniform_seq ?_) ts us h
      simp [hstatement, hlist]

private theorem uniform_statement : ∀ depth, Uniform R (statement depth)
  | 0 => uniform_unexpected _
  | depth + 1 => by
    have hblock := uniform_block depth
    refine uniform_branch rfl fun ts us h ↦ ?_
    rw [nextKind_renamed h]
    split
    · exact uniform_printStatement depth ts us h
    · exact uniform_assignmentStatement depth ts us h
    · exact uniform_varDecl ts us h
    · refine uniform_branch rfl (uniform_seq ?_) ts us h
      simp [uniform_token, uniform_boolExpr, hblock]
    · refine uniform_branch rfl (uniform_seq ?_) ts us h
      simp [uniform_token, uniform_boolExpr, hblock]
    · exact hblock ts us h
    · exact uniform_unexpected _ ts us h

end

private theorem uniform_programTo (depth : Nat) : Uniform R (programTo depth) := by
  refine uniform_branch rfl (uniform_seq ?_)
  simp [uniform_block, uniform_token]

/-- Lists of renamed tokens are equally long, so they are read to one depth. -/
theorem uniform_program : Uniform R program := by
  intro ts us h
  have hdepth : depthFor us = depthFor ts := by rw [depthFor, depthFor, h.length_eq]
  rw [program, program, hdepth]
  exact uniform_programTo _ ts us h

end Derivation

/-- Renamed tokens are parsed as renamed programs, or both fail for one reason. -/
theorem parse_renamed {R : String → String → Prop} {ts us : List Token}
    (h : List.Forall₂ (Token.Renamed R) ts us) :
    ResultsAlike (fun e f ↦ e.bare = f.bare) (Forest.Alike (Tree.Renamed R)) (parse ts).result
      (parse us).result := by
  have hresult : ∀ tokens, (parse tokens).result =
      ((Derivation.program tokens).map Prod.fst).mapError ParseFailure.error := by
    intro tokens
    unfold parse parsePrograms Session.programsOf Session.programsOf Session.program
    dsimp only
    cases Derivation.program tokens <;> rfl
  rw [hresult, hresult]
  have halike := Derivation.uniform_program ts us h
  generalize Derivation.program ts = first, Derivation.program us = other at halike
  cases halike with
  | error he => exact .error he
  | ok hab => exact .ok hab.1

end OnePage
