import OnePage.Proofs.Acceptance

/-!
# Parsers that look one token ahead

What a parser reads, and whether and where it fails, depends only on the tokens up to the next one
it would read. So what it has read when it fails can always be gone on with, and whatever comes
after the token at which it fails, it fails there.
-/

namespace OnePage

private theorem Forest.leafTokens_append (xs ys : Forest Node) :
    Forest.leafTokens (xs ++ ys) = Forest.leafTokens xs ++ Forest.leafTokens ys := by
  simp [Forest.leafTokens, Forest.labels_append]

private theorem Forest.leafTokens_node (p : Production) (ts : Forest Node) :
    Forest.leafTokens [.node (.branch p) ts] = Forest.leafTokens ts := by
  simp [Forest.leafTokens, Forest.labels, Tree.labels, Node.token?, List.filterMap_cons]

private theorem Forest.leafTokens_tokens (tokens : List Token) :
    Forest.leafTokens (tokens.map fun t ↦ .leaf (.leaf t)) = tokens := by
  induction tokens with
  | nil => rfl
  | cons t tokens ih =>
    simpa [Forest.leafTokens, Forest.labels, Tree.leaf, Tree.labels, Node.token?] using ih

/-- The tokens read before a failure. -/
def ParseFailure.read (failure : ParseFailure) : List Token :=
  failure.made.filterMap Node.token?

/-- The error is about the first of the tokens, or about there being none. -/
def ParseError.At : ParseError → List Token → Prop
  | .unexpectedToken _ found position, tokens =>
    ∃ t back, tokens = t :: back ∧ t.lexeme = found ∧ t.position = position
  | .unexpectedEnd _, tokens => tokens = []

/-! ### Derivations side by side -/

private theorem Derives.append {items more : List Item} {kinds others : List Kind}
    (h : Derives items kinds) (k : Derives more others) :
    Derives (items ++ more) (kinds ++ others) := by
  induction h with
  | nil => exact k
  | kind _ ih => exact .kind ih
  | part rule hrhs _ _ ih =>
    rw [List.append_assoc]
    exact .part rule hrhs ih

private theorem Derives.rule {p : Production} {rhs : List Item} {kinds : List Kind}
    (rule : Rule p rhs) (h : Derives rhs kinds) : Derives [.part p] kinds := by
  rw [← List.append_nil kinds]
  exact .part rule h .nil

private theorem derives_replicate (count : Nat) (kind : Kind) :
    Derives (List.replicate count (.kind kind)) (List.replicate count kind) := by
  induction count with
  | zero => exact .nil
  | succ count ih => exact .kind ih

namespace Parser

private theorem nextKind_append {other rest : List Token} (front : List Token)
    (h : nextKind other = nextKind rest) :
    nextKind (front ++ other) = nextKind (front ++ rest) := by
  cases front with
  | nil => exact h
  | cons t front => rfl

private theorem takeWhile_of_nextKind {kind : Kind} {tokens : List Token}
    (h : nextKind tokens ≠ some kind) : tokens.takeWhile (·.kind == kind) = [] := by
  cases tokens with
  | nil => rfl
  | cons t tokens => exact List.takeWhile_cons_of_neg (by simpa [nextKind] using h)

private theorem dropWhile_of_nextKind {kind : Kind} {tokens : List Token}
    (h : nextKind tokens ≠ some kind) : tokens.dropWhile (·.kind == kind) = tokens := by
  cases tokens with
  | nil => rfl
  | cons t tokens => exact List.dropWhile_cons_of_neg (by simpa [nextKind] using h)

private theorem nextKind_dropWhile (kind : Kind) (tokens : List Token) :
    nextKind (tokens.dropWhile (·.kind == kind)) ≠ some kind := by
  induction tokens with
  | nil => exact nofun
  | cons t tokens ih =>
    by_cases h : t.kind = kind
    · rwa [List.dropWhile_cons_of_pos (by simpa using h)]
    · rw [List.dropWhile_cons_of_neg (by simpa using h)]
      simpa [nextKind] using h

private theorem branch_eq_error {p : Production} {children : Parser} {tokens : List Token}
    {failure : ParseFailure} : branch p children tokens = .error failure ↔ ∃ inner,
      children tokens = .error inner ∧
        failure = { inner with made := .branch p :: inner.made } := by
  rw [branch]
  cases children tokens with
  | error inner =>
    constructor
    · intro h
      cases h
      exact ⟨inner, rfl, rfl⟩
    · rintro ⟨_, h, rfl⟩
      cases h
      rfl
  | ok result => simp

/-- A sequence fails where one of its parts does. -/
theorem seq_cons_eq_error {first : Parser} {others : List Parser} {tokens : List Token}
    {failure : ParseFailure} : seq (first :: others) tokens = .error failure ↔
      first tokens = .error failure ∨ ∃ trees mid inner, first tokens = .ok (trees, mid) ∧
        seq others mid = .error inner ∧
          failure = { inner with made := Forest.labels trees ++ inner.made } := by
  rw [seq]
  dsimp only
  cases hfirst : first tokens with
  | error early => simp
  | ok result =>
    obtain ⟨trees, mid⟩ := result
    dsimp only
    cases hothers : seq others mid with
    | ok last => simp [hothers]
    | error inner =>
      constructor
      · intro h
        cases h
        exact .inr ⟨trees, mid, inner, rfl, hothers, rfl⟩
      · rintro (h | ⟨_, _, _, h, hinner, rfl⟩)
        · cases h
        · cases h
          rw [hothers] at hinner
          cases hinner
          rfl

/-- The parser reads phrases of a language of kinds and looks at no more than the kind of the next
token. Where it fails, it has read the start of a phrase. -/
structure Predicts (language : List Kind → Prop) (parser : Parser) : Prop where
  reads : ∀ {tokens rest : List Token} {trees : Forest Node}, parser tokens = .ok (trees, rest) →
    tokens = Forest.leafTokens trees ++ rest ∧
      language ((Forest.leafTokens trees).map Token.kind) ∧
      ∀ other, nextKind other = nextKind rest →
        parser (Forest.leafTokens trees ++ other) = .ok (trees, other)
  stops : ∀ {tokens : List Token} {failure : ParseFailure}, parser tokens = .error failure →
    ∃ back, tokens = failure.read ++ back ∧ failure.error.At back ∧
      (∃ more, language (failure.read.map Token.kind ++ more)) ∧
      ∀ other, nextKind other = nextKind back →
        ∃ later, parser (failure.read ++ other) = .error later

namespace Predicts

variable {language wider : List Kind → Prop} {parser first : Parser} {others : List Parser}

private theorem mono (h : Predicts language parser) (hle : ∀ kinds, language kinds → wider kinds) :
    Predicts wider parser where
  reads hok := by
    obtain ⟨htokens, hlanguage, hlocal⟩ := h.reads hok
    exact ⟨htokens, hle _ hlanguage, hlocal⟩
  stops herror := by
    obtain ⟨back, htokens, hat, ⟨more, hmore⟩, hlocal⟩ := h.stops herror
    exact ⟨back, htokens, hat, ⟨more, hle _ hmore⟩, hlocal⟩

/-- There is something for a parser to read: it starts to read even where there are no tokens. -/
theorem exists_phrase (h : Predicts language parser) : ∃ kinds, language kinds := by
  cases hrun : parser [] with
  | ok result => exact ⟨_, (h.reads hrun).2.1⟩
  | error failure =>
    obtain ⟨_, _, _, ⟨more, hmore⟩, _⟩ := h.stops hrun
    exact ⟨_, hmore⟩

private theorem unexpected (expected : String) (h : ∃ kinds, language kinds) :
    Predicts language (unexpected expected) where
  reads hok := absurd hok unexpected_ne_ok
  stops {tokens failure} herror := by
    obtain ⟨kinds, hkinds⟩ := h
    have hread : failure.read = [] := by
      cases tokens <;> cases herror <;> rfl
    have hat : failure.error.At tokens := by
      cases tokens with
      | nil =>
        cases herror
        rfl
      | cons t back =>
        cases herror
        exact ⟨t, back, rfl, rfl, rfl⟩
    refine ⟨tokens, by rw [hread]; rfl, hat, ⟨kinds, by rw [hread]; exact hkinds⟩, ?_⟩
    intro other _
    cases hrun : Parser.unexpected expected (failure.read ++ other) with
    | ok result => exact absurd hrun unexpected_ne_ok
    | error later => exact ⟨later, rfl⟩

private theorem nothing (h : language []) : Predicts language nothing where
  reads hok := by
    cases hok
    exact ⟨rfl, h, fun _ _ ↦ rfl⟩
  stops herror := by cases herror

private theorem token (kind : Kind) : Predicts (Derives [.kind kind]) (token kind) where
  reads hok := by
    obtain ⟨m, rfl, rfl⟩ := token_eq_ok.mp hok
    exact ⟨rfl, .kind .nil, fun other _ ↦ token_eq_ok.mpr ⟨m, rfl, rfl⟩⟩
  stops {tokens failure} herror := by
    -- The parser fails at the first token, just as one that expects something else.
    have hne : nextKind tokens ≠ some kind := by
      intro hnext
      obtain ⟨m, back, rfl⟩ := Derivation.nextKind_eq_some hnext
      rw [token_eq_ok.mpr ⟨m, rfl, rfl⟩] at herror
      cases herror
    have hfails : ∀ other, nextKind other ≠ some kind →
        Parser.token kind other = Parser.unexpected kind.describe other := by
      intro other hother
      cases other with
      | nil => rfl
      | cons t back =>
        rw [Parser.token, if_neg fun h ↦ hother (by rw [← h]; rfl)]
    rw [hfails tokens hne] at herror
    have hunexpected : Predicts (Derives [.kind kind]) (Parser.unexpected kind.describe) :=
      unexpected _ ⟨[kind], .kind .nil⟩
    obtain ⟨back, htokens, hat, hmore, _⟩ := hunexpected.stops herror
    have hread : failure.read = [] := by
      cases tokens <;> cases herror <;> rfl
    rw [hread, List.nil_append] at htokens
    refine ⟨back, by rw [hread]; exact htokens, hat, hmore, fun other hother ↦ ?_⟩
    rw [hread, List.nil_append, hfails other (by rwa [hother, ← htokens])]
    cases other <;> exact ⟨_, rfl⟩

/-- All tokens of a kind are read, any number of them. -/
theorem tokensOf (kind : Kind) :
    Predicts (fun kinds ↦ ∃ count, kinds = List.replicate count kind) (tokensOf kind) where
  reads {tokens rest trees} hok := by
    cases hok
    obtain ⟨ms, hms⟩ := Derivation.takeWhile_kind kind tokens
    have hall : ∀ t ∈ ms.map (·.token kind), t.kind == kind := by simp
    rw [Forest.leafTokens_tokens, hms]
    refine ⟨?_, ⟨ms.length, by simp [Function.comp_def, List.map_const']⟩, fun other hother ↦ ?_⟩
    · rw [← hms, List.takeWhile_append_dropWhile]
    · -- What comes next is not of the kind, neither in the rest nor in the other tokens.
      have hnext : nextKind other ≠ some kind := by
        rw [hother]
        exact nextKind_dropWhile kind tokens
      rw [Parser.tokensOf, List.takeWhile_append_of_pos hall, List.dropWhile_append_of_pos hall,
        takeWhile_of_nextKind hnext, dropWhile_of_nextKind hnext, List.append_nil]
  stops herror := by cases herror

/-- The next token may decide which parser goes on. -/
theorem choose (h : ∀ next, ∃ choice : Parser, Predicts language choice ∧
    ∀ tokens, nextKind tokens = next → parser tokens = choice tokens) :
    Predicts language parser where
  reads {tokens rest trees} hok := by
    obtain ⟨choice, hchoice, heq⟩ := h (nextKind tokens)
    rw [heq tokens rfl] at hok
    obtain ⟨htokens, hlanguage, hlocal⟩ := hchoice.reads hok
    refine ⟨htokens, hlanguage, fun other hother ↦ ?_⟩
    rw [heq _ (by rw [nextKind_append _ hother, ← htokens]), hlocal other hother]
  stops {tokens failure} herror := by
    obtain ⟨choice, hchoice, heq⟩ := h (nextKind tokens)
    rw [heq tokens rfl] at herror
    obtain ⟨back, htokens, hat, hmore, hlocal⟩ := hchoice.stops herror
    refine ⟨back, htokens, hat, hmore, fun other hother ↦ ?_⟩
    rw [heq _ (by rw [nextKind_append _ hother, ← htokens])]
    exact hlocal other hother

private theorem branch (p : Production) (h : Predicts language parser) :
    Predicts language (branch p parser) where
  reads hok := by
    obtain ⟨inner, hinner, rfl⟩ := branch_eq_ok.mp hok
    rw [Forest.leafTokens_node]
    obtain ⟨htokens, hlanguage, hlocal⟩ := h.reads hinner
    exact ⟨htokens, hlanguage, fun other hother ↦
      branch_eq_ok.mpr ⟨inner, hlocal other hother, rfl⟩⟩
  stops herror := by
    obtain ⟨inner, hinner, rfl⟩ := branch_eq_error.mp herror
    obtain ⟨back, htokens, hat, hmore, hlocal⟩ := h.stops hinner
    refine ⟨back, htokens, hat, hmore, fun other hother ↦ ?_⟩
    obtain ⟨later, hlater⟩ := hlocal other hother
    exact ⟨_, branch_eq_error.mpr ⟨later, hlater, rfl⟩⟩

/-- Parsers in sequence read what each of them reads, one after the other. -/
theorem andThen {front back : List Kind → Prop} (h : Predicts front first)
    (k : Predicts back (seq others))
    (join : ∀ kinds more, front kinds → back more → language (kinds ++ more)) :
    Predicts language (seq (first :: others)) where
  reads hok := by
    obtain ⟨before, mid, after, hfirst, hothers, rfl⟩ := seq_cons_eq_ok.mp hok
    obtain ⟨rfl, hbefore, hlocal⟩ := h.reads hfirst
    obtain ⟨rfl, hafter, hlocal'⟩ := k.reads hothers
    rw [Forest.leafTokens_append, List.map_append, List.append_assoc]
    refine ⟨rfl, join _ _ hbefore hafter, fun other hother ↦ ?_⟩
    rw [List.append_assoc]
    exact seq_cons_eq_ok.mpr ⟨before, _, after, hlocal _ (nextKind_append _ hother),
      hlocal' other hother, rfl⟩
  stops {tokens failure} herror := by
    rcases seq_cons_eq_error.mp herror with hfirst | ⟨trees, mid, inner, hfirst, hothers, rfl⟩
    · -- The first part fails; any phrase of the others completes what completes it.
      obtain ⟨rest, htokens, hat, ⟨more, hmore⟩, hlocal⟩ := h.stops hfirst
      obtain ⟨kinds, hkinds⟩ := k.exists_phrase
      refine ⟨rest, htokens, hat, ⟨more ++ kinds, ?_⟩, fun other hother ↦ ?_⟩
      · rw [← List.append_assoc]
        exact join _ _ hmore hkinds
      · obtain ⟨later, hlater⟩ := hlocal other hother
        exact ⟨later, seq_cons_eq_error.mpr (.inl hlater)⟩
    · obtain ⟨rfl, hfront, hlocal⟩ := h.reads hfirst
      obtain ⟨rest, rfl, hat, ⟨more, hmore⟩, hlocal'⟩ := k.stops hothers
      have hread : ParseFailure.read { inner with made := Forest.labels trees ++ inner.made } =
          Forest.leafTokens trees ++ inner.read := List.filterMap_append ..
      rw [hread]
      refine ⟨rest, by rw [List.append_assoc], hat, ⟨more, ?_⟩, fun other hother ↦ ?_⟩
      · rw [List.map_append, List.append_assoc]
        exact join _ _ hfront hmore
      · obtain ⟨later, hlater⟩ := hlocal' other hother
        rw [List.append_assoc]
        exact ⟨_, seq_cons_eq_error.mpr
          (.inr ⟨trees, _, later, hlocal _ (nextKind_append _ hother), hlater, rfl⟩)⟩

/-- Parsers in sequence read the right-hand side of a rule. -/
theorem seq_cons {item : Item} {items : List Item} (h : Predicts (Derives [item]) first)
    (k : Predicts (Derives items) (seq others)) :
    Predicts (Derives (item :: items)) (seq (first :: others)) :=
  h.andThen k fun _ _ ↦ .append

private theorem seq_nil : Predicts (Derives []) (seq []) := nothing .nil

private theorem seq_single (h : Predicts language parser) : Predicts language (seq [parser]) := by
  have hend : Predicts (· = []) (seq []) := nothing rfl
  refine h.andThen hend ?_
  rintro kinds _ hkinds rfl
  rwa [List.append_nil]

/-- A node over the right-hand side of a rule. -/
theorem rule {p : Production} {rhs : List Item} (rule : Rule p rhs)
    (h : Predicts (Derives rhs) parser) : Predicts (Derives [.part p]) (Parser.branch p parser) :=
  (h.mono fun _ ↦ .rule rule).branch p

private theorem terminal {p : Production} {kind : Kind} (rule : Rule p [.kind kind]) :
    Predicts (Derives [.part p]) (terminal p kind) :=
  .rule rule (.token kind)

end Predicts

end Parser

/-! ### The parsers of the grammar -/

namespace Derivation

open OnePage.Parser

private theorem predicts_name : Predicts (Derives [.part .name]) name := .terminal .name

private theorem predicts_charList : Predicts (Derives [.part .charList]) charList := by
  have hchars : Predicts (Derives [.part .charList]) (branch .charList (tokensOf .char)) := by
    refine .branch .charList ((Predicts.tokensOf .char).mono ?_)
    rintro _ ⟨count, rfl⟩
    exact .rule (.characters count) (derives_replicate count .char)
  refine .choose fun next ↦ ?_
  by_cases h : next = some .char
  · exact ⟨_, hchars, fun tokens hnext ↦ if_pos (hnext.trans h)⟩
  · exact ⟨_, .nothing (.rule (.characters 0) .nil),
      fun tokens hnext ↦ if_neg fun he ↦ h (hnext.symm.trans he)⟩

private theorem predicts_stringExpr : Predicts (Derives [.part .stringExpr]) stringExpr :=
  .rule .text (.seq_cons (.token .quote) (.seq_cons predicts_charList
    (.seq_cons (.token .quote) .seq_nil)))

private theorem predicts_varDecl : Predicts (Derives [.part .varDecl]) varDecl :=
  .rule .varDecl (.seq_cons (.terminal .typeName) (.seq_cons predicts_name .seq_nil))

/-- An expression of one token. -/
theorem derives_flag : Derives [.part .boolExpr] [.boolVal] :=
  .rule .truth (.rule .boolVal (.kind .nil))

private theorem derives_expr : Derives [.part .expr] [.boolVal] := .rule .boolExpr derives_flag

private theorem derives_intExpr : Derives [.part .intExpr] [.digit] :=
  .rule .oneDigit (.rule .digit (.kind .nil))

-- The recursion is on the depth. Where it is used up a parser fails at the next token, whatever
-- that is, so how much of it is needed plays no part here.
mutual

private theorem predicts_expr : ∀ depth, Predicts (Derives [.part .expr]) (expr depth)
  | 0 => by
    rw [expr]
    exact .unexpected _ ⟨_, derives_expr⟩
  | depth + 1 => by
    rw [expr]
    refine .branch .expr (.choose fun next ↦ ?_)
    rcases next with _ | kind
    · exact ⟨_, .unexpected "expression" ⟨_, derives_expr⟩, fun tokens h ↦ by rw [h]⟩
    cases kind with
    | digit =>
      exact ⟨_, (predicts_intExpr depth).mono fun _ ↦ .rule .intExpr, fun tokens h ↦ by rw [h]⟩
    | quote =>
      exact ⟨_, predicts_stringExpr.mono fun _ ↦ .rule .stringExpr, fun tokens h ↦ by rw [h]⟩
    | parenOpen | boolVal =>
      exact ⟨_, (predicts_boolExpr depth).mono fun _ ↦ .rule .boolExpr, fun tokens h ↦ by rw [h]⟩
    | identifier =>
      exact ⟨_, predicts_name.mono fun _ ↦ .rule .naming, fun tokens h ↦ by rw [h]⟩
    | _ => exact ⟨_, .unexpected "expression" ⟨_, derives_expr⟩, fun tokens h ↦ by rw [h]⟩

private theorem predicts_intExpr : ∀ depth, Predicts (Derives [.part .intExpr]) (intExpr depth)
  | 0 => by
    rw [intExpr]
    exact .unexpected _ ⟨_, derives_intExpr⟩
  | depth + 1 => by
    rw [intExpr]
    -- After the digit comes nothing, or a sign and an expression.
    have hmore : Predicts (fun kinds ↦ kinds = [] ∨ Derives [.part .intOp, .part .expr] kinds)
        fun tokens ↦ if nextKind tokens = some .intOp then
          seq [terminal .intOp .intOp, expr depth] tokens else nothing tokens := by
      refine .choose fun next ↦ ?_
      by_cases h : next = some .intOp
      · exact ⟨_, (Predicts.seq_cons (.terminal .intOp) (.seq_cons (predicts_expr depth)
          .seq_nil)).mono fun _ ↦ .inr, fun tokens hnext ↦ if_pos (hnext.trans h)⟩
      · exact ⟨_, .nothing (.inl rfl), fun tokens hnext ↦ if_neg fun he ↦ h (hnext.symm.trans he)⟩
    refine .branch .intExpr (.andThen (.terminal .digit) hmore.seq_single ?_)
    rintro kinds more hdigit (rfl | hsum)
    · rw [List.append_nil]
      exact .rule .oneDigit hdigit
    · exact .rule .sum (hdigit.append hsum)

private theorem predicts_boolExpr : ∀ depth, Predicts (Derives [.part .boolExpr]) (boolExpr depth)
  | 0 => by
    rw [boolExpr]
    exact .unexpected _ ⟨_, derives_flag⟩
  | depth + 1 => by
    rw [boolExpr]
    refine .branch .boolExpr (.choose fun next ↦ ?_)
    by_cases h : next = some .boolVal
    · exact ⟨_, (Predicts.terminal .boolVal).mono fun _ ↦ .rule .truth,
        fun tokens hnext ↦ if_pos (hnext.trans h)⟩
    · refine ⟨_, ?_, fun tokens hnext ↦ if_neg fun he ↦ h (hnext.symm.trans he)⟩
      exact (Predicts.seq_cons (.token .parenOpen) (.seq_cons (predicts_expr depth)
        (.seq_cons (.terminal .boolOp) (.seq_cons (predicts_expr depth)
          (.seq_cons (.token .parenClose) .seq_nil))))).mono fun _ ↦ .rule .comparison

end

private theorem predicts_printStatement (depth : Nat) :
    Predicts (Derives [.part .printStatement]) (printStatement depth) :=
  .rule .printStatement (.seq_cons (.token .printWord) (.seq_cons (.token .parenOpen)
    (.seq_cons (predicts_expr depth) (.seq_cons (.token .parenClose) .seq_nil))))

private theorem predicts_assignmentStatement (depth : Nat) :
    Predicts (Derives [.part .assignmentStatement]) (assignmentStatement depth) :=
  .rule .assignmentStatement (.seq_cons predicts_name (.seq_cons (.token .assign)
    (.seq_cons (predicts_expr depth) .seq_nil)))

private theorem derives_block : Derives [.part .block] [.braceOpen, .braceClose] :=
  .rule .block (.kind (.part .noStatement .nil (.kind .nil)))

private theorem derives_statement : Derives [.part .statement] [.braceOpen, .braceClose] :=
  .rule .nesting derives_block

mutual

private theorem predicts_block : ∀ depth, Predicts (Derives [.part .block]) (block depth)
  | 0 => by
    rw [block]
    exact .unexpected _ ⟨_, derives_block⟩
  | depth + 1 => by
    rw [block]
    exact .rule .block (.seq_cons (.token .braceOpen) (.seq_cons (predicts_statementList depth)
      (.seq_cons (.token .braceClose) .seq_nil)))

private theorem predicts_statementList : ∀ depth,
    Predicts (Derives [.part .statementList]) (statementList depth)
  | 0 => by
    rw [statementList]
    exact .unexpected _ ⟨_, .rule .noStatement .nil⟩
  | depth + 1 => by
    rw [statementList]
    have hempty : Predicts (Derives [.part .statementList]) nothing :=
      .nothing (.rule .noStatement .nil)
    have hmore : Predicts (Derives [.part .statementList])
        (branch .statementList (seq [statement depth, statementList depth])) :=
      .rule .moreStatements (.seq_cons (predicts_statement depth)
        (.seq_cons (predicts_statementList depth) .seq_nil))
    refine .choose fun next ↦ ?_
    rcases next with _ | kind
    · exact ⟨_, hempty, fun tokens h ↦ by rw [h]⟩
    cases kind with
    | braceClose => exact ⟨_, hempty, fun tokens h ↦ by rw [h]⟩
    | _ => exact ⟨_, hmore, fun tokens h ↦ by rw [h]⟩

private theorem predicts_statement :
    ∀ depth, Predicts (Derives [.part .statement]) (statement depth)
  | 0 => by
    rw [statement]
    exact .unexpected _ ⟨_, derives_statement⟩
  | depth + 1 => by
    rw [statement]
    have hguarded {p : Production} {kind : Kind}
        (rule : Rule p [.kind kind, .part .boolExpr, .part .block]) :
        Predicts (Derives [.part p]) (branch p (seq [token kind, boolExpr depth, block depth])) :=
      .rule rule (.seq_cons (.token kind) (.seq_cons (predicts_boolExpr depth)
        (.seq_cons (predicts_block depth) .seq_nil)))
    refine .branch .statement (.choose fun next ↦ ?_)
    rcases next with _ | kind
    · exact ⟨_, .unexpected "statement" ⟨_, derives_statement⟩, fun tokens h ↦ by rw [h]⟩
    cases kind with
    | printWord =>
      exact ⟨_, (predicts_printStatement depth).mono fun _ ↦ .rule .printing,
        fun tokens h ↦ by rw [h]⟩
    | identifier =>
      exact ⟨_, (predicts_assignmentStatement depth).mono fun _ ↦ .rule .assigning,
        fun tokens h ↦ by rw [h]⟩
    | typeWord =>
      exact ⟨_, predicts_varDecl.mono fun _ ↦ .rule .declaring, fun tokens h ↦ by rw [h]⟩
    | whileWord =>
      exact ⟨_, (hguarded .whileStatement).mono fun _ ↦ .rule .looping, fun tokens h ↦ by rw [h]⟩
    | ifWord =>
      exact ⟨_, (hguarded .ifStatement).mono fun _ ↦ .rule .choosing, fun tokens h ↦ by rw [h]⟩
    | braceOpen =>
      exact ⟨_, (predicts_block depth).mono fun _ ↦ .rule .nesting, fun tokens h ↦ by rw [h]⟩
    | _ =>
      exact ⟨_, .unexpected "statement" ⟨_, derives_statement⟩, fun tokens h ↦ by rw [h]⟩

end

/-- The parser of a program reads programs and looks at no more than the next token. -/
theorem predicts_programTo (depth : Nat) :
    Predicts (Derives [.part .program]) (programTo depth) :=
  .rule .program (.seq_cons (predicts_block depth) (.seq_cons (.token .eof) .seq_nil))

end Derivation

end OnePage
