import OnePage.Proofs.StatementPieces
import OnePage.Proofs.Typing

/-!
# Well-typed programs can be drafted

An expression is ready if it is one all through and its variables are declared. Well-typed trees are
read as ready expressions, and a ready expression is drafted without error. Every statement of a
well-typed program then is, and its declarations stay known.
-/

namespace OnePage

open Drafting

/-- The symbol has one of the slots. -/
def Slotted (homes : List (SymbolId × Nat)) (symbol : SymbolId) : Prop :=
  ∃ slot, homes.lookup symbol = some slot

/-- A symbol keeps a slot when variables are added. -/
theorem Slotted.extend {d next : Draft} {symbol : SymbolId} (h : Slotted d.homes symbol)
    (k : d.Extends next) : Slotted next.homes symbol := by
  obtain ⟨slot, hslot⟩ := h
  obtain ⟨new, hnew⟩ := k.homes
  rw [Slotted, ← hnew, List.lookup_append, hslot]
  cases List.lookup symbol new with
  | none => exact ⟨slot, rfl⟩
  | some other => exact ⟨other, rfl⟩

namespace Expr

mutual

/-- The expression is one all through, and its variables are known. -/
def Ready (known : SymbolId → Prop) : Expr → Prop
  | digit _ | flag _ | text _ => True
  | var symbol _ => known symbol
  | sum first rest => first.Ready known ∧ ReadyAll known rest
  | compare _ left right => left.Ready known ∧ right.Ready known
  | oddCompare _ | invalid _ => False

/-- All expressions are ready. -/
def ReadyAll (known : SymbolId → Prop) : List Expr → Prop
  | [] => True
  | e :: es => e.Ready known ∧ ReadyAll known es

end

private theorem readyAll_iff {known : SymbolId → Prop} {es : List Expr} :
    ReadyAll known es ↔ ∀ e ∈ es, e.Ready known := by
  induction es with
  | nil => simp [ReadyAll]
  | cons e es ih => rw [ReadyAll, ih, List.forall_mem_cons]

private theorem Ready.ne_invalid {known : SymbolId → Prop} {e : Expr} (h : e.Ready known)
    (err : CodeError) : e ≠ .invalid err := by
  rintro rfl
  rw [Ready] at h
  exact h

/-- The terms of a ready expression are ready, and there is one. -/
theorem Ready.terms {known : SymbolId → Prop} {e : Expr} (h : e.Ready known) :
    e.terms ≠ [] ∧ ∀ t ∈ e.terms, t.Ready known := by
  cases e with
  | sum first rest =>
    rw [Ready, readyAll_iff] at h
    exact ⟨by simp [Expr.terms], List.forall_mem_cons.mpr h⟩
  | _ => exact ⟨by simp [Expr.terms], by simpa [Expr.terms] using h⟩

/-- The value of a decimal digit. -/
theorem ofText?_digit {c : Char} (h : isDecimal c) :
    Decimal.ofText? 256 (String.ofList [c]) = some (c.toNat - '0'.toNat) := by
  have hdigit : c.isDigit = true := h
  have hsign : c ≠ '+' := by
    rintro rfl
    exact absurd hdigit (by decide)
  have hunsigned : Decimal.unsigned [c] = [c] := by
    unfold Decimal.unsigned
    split
    · next heq => exact absurd (List.cons.inj heq).1 hsign
    · rfl
  have hle : c.toNat ≤ '9'.toNat := of_decide_eq_true (Bool.and_eq_true_iff.mp h).2
  have hvalue : Decimal.value [c] = c.toNat - '0'.toNat := by simp [Decimal.value]
  have hlt : c.toNat - '0'.toNat < 256 := by
    have hnine : '9'.toNat = 57 := rfl
    omega
  unfold Decimal.ofText?
  rw [String.toList_ofList, hunsigned]
  simp only [hvalue, List.isEmpty_cons, List.all_cons, List.all_nil, hdigit, Bool.and_true,
    Bool.not_true, Bool.or_self, Bool.false_eq_true, if_false, if_pos hlt]

/-- The leaf of a digit is read as its value. -/
theorem ofTree_digit {m : Mark} {c : Char} (hlexeme : m.lexeme = String.ofList [c])
    (hc : isDecimal c) : ofTree (.leaf { node := .leaf (m.token .digit) }) =
      .digit (UInt8.ofNat (c.toNat - '0'.toNat)) := by
  simp only [Tree.leaf, ofTree, ofToken, Mark.token, hlexeme, ofText?_digit hc]

/-- The node of a sum is read as the sum of the terms of both sides. -/
theorem ofTree_sum (m : Mark) (left right : Tree Resolved) :
    ofTree (.node { node := .leaf (m.token .intOp) } [left, right]) =
      sumAll m.lexeme ((ofTree left).terms ++ (ofTree right).terms) := by
  simp [ofTree, ofTrees, Mark.token]

/-- The node of a comparison is read as the comparison of both sides, for equality just if its sign
is. -/
theorem ofTree_compare {m : Mark} {equal : Bool} (hlexeme : m.lexeme = compareSign equal)
    (left right : Tree Resolved) :
    ofTree (.node { node := .leaf (m.token .boolOp) } [left, right]) =
      .compare equal (ofTree left) (ofTree right) := by
  have hsign : (compareSign equal == "==") = equal := by
    cases equal <;> decide
  simp only [ofTree, ofTrees, Mark.token, compareAll, hlexeme, hsign]

/-- A well-typed tree is read as a ready expression. -/
theorem ready_ofTree {types : SymbolId → VarType} {names : Bindings} {known : SymbolId → Prop}
    (hknown : ∀ b ∈ names, known b.2) {t : Tree Resolved} {type : VarType}
    (h : ExprTyped types names t type) : (ofTree t).Ready known := by
  induction h with
  | digit hlexeme hc =>
    rw [ofTree_digit hlexeme hc]
    trivial
  | flag value hlexeme =>
    rw [Tree.leaf, ofTree]
    trivial
  | text hchars =>
    rw [Tree.leaf, ofTree]
    trivial
  | var hl hne => exact hknown _ (mem_of_lookup hl)
  | @sum m left right _ _ ihl ihr =>
    obtain ⟨first, rest, hterms⟩ := List.exists_cons_of_ne_nil ihl.terms.1
    rw [ofTree_sum, hterms, List.cons_append, sumAll, Ready, readyAll_iff]
    have hleft := ihl.terms.2
    rw [hterms, List.forall_mem_cons] at hleft
    exact ⟨hleft.1, List.forall_mem_append.mpr ⟨hleft.2, ihr.terms.2⟩⟩
  | compare equal hlexeme _ _ ihl ihr =>
    rw [ofTree_compare hlexeme, Ready]
    exact ⟨ihl, ihr⟩

/-- The step succeeds wherever these are the slots of the variables. -/
def Works {α : Type} (homes : List (SymbolId × Nat)) (step : Drafting α) : Prop :=
  ∀ d : Draft, d.WellFormed → d.homes = homes → ∃ a next, step.run d = .ok a next

variable {homes : List (SymbolId × Nat)}

private theorem works_keep {step : Drafting Unit} (h : Works homes step) :
    Works homes (keep step) := by
  intro d hd hv
  obtain ⟨_, mid, hmid⟩ := h (d.addSlot none) (hd.addSlot none) hv
  exact ⟨_, _, keep_eq_ok.mpr ⟨rfl, mid, hmid, rfl⟩⟩

private theorem works_accumulate {slot : Nat} {steps : List (Drafting Unit)}
    (h : ∀ step ∈ steps, Works homes step ∧ Builds step) {d : Draft} (hd : d.WellFormed)
    (hv : d.homes = homes) : ∃ next, (accumulate slot steps).run d = .ok () next := by
  induction steps generalizing d with
  | nil => exact ⟨d, rfl⟩
  | cons step steps ih =>
    obtain ⟨works, builds⟩ := h step (List.mem_cons_self ..)
    obtain ⟨_, mid, hstep⟩ := works d hd hv
    have hmid : ValuePiece d mid := builds d mid hd hstep
    have hadded : (added slot mid).WellFormed := (hmid.sound.addLine _).addLine _
    obtain ⟨next, hnext⟩ := ih (fun s hs ↦ h s (List.mem_cons_of_mem _ hs)) hadded
      (hmid.homes_eq.trans hv)
    exact ⟨next, accumulate_cons_eq_ok.mpr ⟨mid, hstep, hnext⟩⟩

private theorem works_addUp {first : Drafting Unit} {rest : List (Drafting Unit)}
    (hf : Works homes first) (hb : Builds first)
    (hr : ∀ step ∈ rest, Works homes step ∧ Builds step) :
    Works homes (addUp first rest) := by
  intro d hd hv
  obtain ⟨slot, mid, hkeep⟩ := works_keep hf d hd hv
  have hmid := (builds_keep hb d slot mid hd hkeep).1
  obtain ⟨next, hnext⟩ := works_accumulate hr hmid.sound (hmid.homes_eq.trans hv)
  exact ⟨slot, next, addUp_eq_ok.mpr ⟨mid, hkeep, hnext⟩⟩

/-- Operands that are expressions can be put into slots. -/
theorem works_operands {table : ScopeTable} {left right : Expr}
    (valid : ∀ e ∈ [left, right], ∀ err, e ≠ .invalid err)
    (hl : Works homes (toSlot table left)) (hr : Works homes (toSlot table right))
    {d : Draft} (hd : d.WellFormed) (hv : d.homes = homes) :
    ∃ x y last, Operands table left right d x y last := by
  obtain ⟨x, mid, hx⟩ := hl d hd hv
  have hmid := (builds_toSlot table left d x mid hd hx).1
  obtain ⟨y, last, hy⟩ := hr mid hmid.sound (hmid.homes_eq.trans hv)
  exact ⟨x, y, last, valid, mid, hx, hy⟩

private theorem Ready.valid {known : SymbolId → Prop} {es : List Expr}
    (h : ∀ e ∈ es, e.Ready known) :
    ∀ e ∈ es, ∀ err, e ≠ .invalid err :=
  fun e he ↦ (h e he).ne_invalid

private theorem Ready.sum {known : SymbolId → Prop} {first : Expr} {rest : List Expr}
    (h : (sum first rest).Ready known) : ∀ e ∈ first :: rest, e.Ready known :=
  List.forall_mem_cons.mpr ⟨h.1, readyAll_iff.mp h.2⟩

private theorem Ready.compare {known : SymbolId → Prop} {equal : Bool} {left right : Expr}
    (h : (compare equal left right).Ready known) : ∀ e ∈ [left, right], e.Ready known := by
  simpa using ⟨h.1, h.2⟩

private theorem works_sum {table : ScopeTable} {first : Expr} {rest : List Expr}
    (valid : ∀ e ∈ first :: rest, ∀ err, e ≠ .invalid err) (hf : Works homes (load table first))
    (hr : ∀ step ∈ loads table rest, Works homes step ∧ Builds step) :
    Works homes (toSlot table (.sum first rest)) := by
  intro d hd hv
  obtain ⟨slot, next, hnext⟩ := works_addUp hf (builds_load table first) hr d hd hv
  exact ⟨slot, next, toSlot_sum_eq_ok.mpr ⟨valid, hnext⟩⟩

private theorem works_compare {table : ScopeTable} {equal : Bool} {left right : Expr}
    (valid : ∀ e ∈ [left, right], ∀ err, e ≠ .invalid err)
    (hl : Works homes (toSlot table left)) (hr : Works homes (toSlot table right)) :
    Works homes (load table (.compare equal left right)) := by
  intro d hd hv
  obtain ⟨x, y, last, hops⟩ := works_operands valid hl hr hd hv
  exact ⟨_, _, load_compare_eq_ok.mpr ⟨x, y, last, hops, run_loadComparison equal x y last⟩⟩

mutual

/-- A ready expression can be loaded. -/
theorem works_load (table : ScopeTable) {homes : List (SymbolId × Nat)} (e : Expr)
    (h : e.Ready (Slotted homes)) : Works homes (load table e) := by
  cases e with
  | digit _ | flag _ | text _ => exact fun d _ _ ↦ ⟨_, _, rfl⟩
  | var symbol name =>
    obtain ⟨slot, hslot⟩ := h
    exact fun d _ hv ↦ ⟨_, _, load_var_eq_ok.mpr ⟨slot, hv ▸ hslot, rfl⟩⟩
  | sum first rest =>
    intro d hd hv
    obtain ⟨slot, next, hnext⟩ := works_sum (Ready.valid h.sum) (works_load table first h.1)
      (works_loads table rest h.2) d hd hv
    exact ⟨_, next, load_sum_eq_ok.mpr ⟨slot, hnext⟩⟩
  | compare equal left right =>
    exact works_compare (Ready.valid h.compare) (works_toSlot table left h.1)
      (works_toSlot table right h.2)
  | oddCompare _ | invalid _ => exact h.elim

/-- A ready expression can be put into a slot. -/
theorem works_toSlot (table : ScopeTable) {homes : List (SymbolId × Nat)} (e : Expr)
    (h : e.Ready (Slotted homes)) : Works homes (toSlot table e) := by
  cases e with
  | digit _ | flag _ | text _ => exact fun d _ _ ↦ ⟨_, _, rfl⟩
  | var symbol name =>
    obtain ⟨slot, hslot⟩ := h
    exact fun d _ hv ↦ ⟨slot, d, variableSlot_eq_ok.mpr ⟨rfl, hv ▸ hslot⟩⟩
  | sum first rest =>
    exact works_sum (Ready.valid h.sum) (works_load table first h.1) (works_loads table rest h.2)
  | compare equal left right =>
    rw [toSlot_compare]
    exact works_keep (works_compare (Ready.valid h.compare) (works_toSlot table left h.1)
      (works_toSlot table right h.2))
  | oddCompare _ | invalid _ => exact h.elim

private theorem works_loads (table : ScopeTable) {homes : List (SymbolId × Nat)} (es : List Expr)
    (h : ReadyAll (Slotted homes) es) :
    ∀ step ∈ loads table es, Works homes step ∧ Builds step := by
  cases es with
  | nil =>
    rw [loads]
    simp
  | cons e es =>
    rw [loads]
    exact List.forall_mem_cons.mpr ⟨⟨works_load table e h.1, builds_load table e⟩,
      works_loads table es h.2⟩

end

/-- A ready condition can be drafted. -/
theorem works_condition {table : ScopeTable} {e : Expr} (h : e.Ready (Slotted homes)) :
    Works homes (condition table e) := by
  intro d hd hv
  by_cases he : ∃ left right, e = .compare true left right
  · obtain ⟨left, right, rfl⟩ := he
    obtain ⟨x, y, last, hops⟩ := works_operands (Ready.valid h.compare)
      (works_toSlot table left h.1) (works_toSlot table right h.2) hd hv
    exact ⟨_, _, condition_eq_ok.mpr ⟨x, y, last, hops, rfl⟩⟩
  · simp only [not_exists] at he
    obtain ⟨slot, last, hslot⟩ := works_toSlot table e h d hd hv
    exact ⟨_, _, (condition_slot_eq_ok he).mpr ⟨slot, last, hslot, rfl⟩⟩

end Expr

namespace Stmt

variable {table : ScopeTable} {homes : List (SymbolId × Nat)}

/-- A ready expression can be printed, unless it is a variable without a type. -/
theorem works_printValue {e : Expr} (h : e.Ready (Slotted homes))
    (typed : ∀ symbol name, e = .var symbol name → table.typeOf symbol ≠ .none) :
    Expr.Works homes (printValue table e) := by
  intro d hd hv
  cases e with
  | digit _ | flag _ | text _ => exact ⟨_, _, rfl⟩
  | var symbol name =>
    obtain ⟨slot, hslot⟩ := h
    have hprint : ∃ next, (printVariable (table.typeOf symbol) name slot).run d = .ok () next := by
      cases htype : table.typeOf symbol with
      | int | boolean | string => exact ⟨_, rfl⟩
      | none => exact absurd htype (typed symbol name rfl)
    obtain ⟨next, hnext⟩ := hprint
    exact ⟨_, next, printValue_var_eq_ok.mpr ⟨slot, hv ▸ hslot, hnext⟩⟩
  | sum first rest =>
    obtain ⟨slot, last, hslot⟩ := Expr.works_toSlot table _ h d hd hv
    exact ⟨_, _, run_bind_eq_ok.mpr ⟨slot, last, hslot, run_printNumber slot last⟩⟩
  | compare equal left right =>
    obtain ⟨slot, last, hslot⟩ := Expr.works_toSlot table _ h d hd hv
    exact ⟨_, _, run_bind_eq_ok.mpr ⟨slot, last, hslot, run_printFlag slot last⟩⟩
  | oddCompare _ | invalid _ => exact h.elim

end Stmt

/-- A tree that is read as a variable has the variable's type. -/
theorem ExprTyped.type_of_var {types : SymbolId → VarType} {names : Bindings}
    {t : Tree Resolved} {type : VarType} (h : ExprTyped types names t type) {symbol : SymbolId}
    {name : String} (hv : Expr.ofTree t = .var symbol name) : type = types symbol := by
  cases h with
  | var _ _ =>
    cases hv
    rfl
  | digit hlexeme hc =>
    rw [Expr.ofTree_digit hlexeme hc] at hv
    cases hv
  | flag _ _ | text _ => cases hv
  | @sum m left right _ _ =>
    rw [Expr.ofTree_sum] at hv
    cases hterms : (Expr.ofTree left).terms ++ (Expr.ofTree right).terms with
    | nil | cons _ _ =>
      rw [hterms] at hv
      cases hv
  | compare equal hlexeme _ _ =>
    rw [Expr.ofTree_compare hlexeme] at hv
    cases hv

/-- What had a slot before a statement was drafted has one after it. -/
theorem slotted_draft {table : ScopeTable} {s : Stmt} {d next : Draft} {names : Bindings}
    (hd : d.WellFormed) (hk : ∀ b ∈ names, Slotted d.homes b.2)
    (h : (Stmt.draft table s).run d = .ok () next) : ∀ b ∈ names, Slotted next.homes b.2 :=
  fun b hb ↦ (hk b hb).extend (Stmt.adds_draft table s d next hd h).grows

/-- The condition of a well-typed statement can be drafted, and its body can follow. -/
theorem ExprTyped.tests {table : ScopeTable} {names : Bindings} {t : Tree Resolved}
    {type : VarType} {d : Draft} (h : ExprTyped table.typeOf names t type) (hd : d.WellFormed)
    (hk : ∀ b ∈ names, Slotted d.homes b.2) :
    ∃ tested, ((Expr.ofTree t).condition table).run d = .ok () tested ∧
      (branched tested).WellFormed ∧ ∀ b ∈ names, Slotted (branched tested).homes b.2 := by
  obtain ⟨_, tested, hcond⟩ := Expr.works_condition (Expr.ready_ofTree hk h) d hd rfl
  have htested := Expr.builds_condition table _ d tested hd hcond
  refine ⟨tested, hcond, htested.sound.addJump.addLine _, fun b hb ↦ ?_⟩
  exact (hk b hb).extend (htested.grows.trans (extends_branched tested))

mutual

/-- A well-typed statement can be drafted, and then all that is in scope has a slot. -/
theorem StmtTyped.drafts {table : ScopeTable} {names later : Bindings} {n last : Nat}
    {t : Tree Resolved} (h : StmtTyped table.typeOf names n t later last) {d : Draft}
    (hd : d.WellFormed) (hk : ∀ b ∈ names, Slotted d.homes b.2) :
    ∃ next, (Stmt.draft table (Stmt.ofTree t)).run d = .ok () next ∧
      ∀ b ∈ later, Slotted next.homes b.2 := by
  cases h with
  | declare _ _ =>
    obtain ⟨text, hrun⟩ := Stmt.run_declareVariable table n d
    refine ⟨_, hrun, List.forall_mem_cons.mpr ⟨?_, slotted_draft (s := .declare n) hd hk hrun⟩⟩
    -- The code that loads the first value leaves the variables as they are.
    have hfirst := Stmt.valuePiece_firstLoaded (((Piece.declared hd n).sound).addLine
      (.note .verbose text)) (table.typeOf n)
    refine ⟨d.slots.size, ?_⟩
    show List.lookup n (Stmt.firstLoaded _ _).homes = _
    rw [hfirst.homes_eq]
    exact List.lookup_cons_self
  | @assign _ _ name symbol value hl hvalue =>
    obtain ⟨slot, hslot⟩ := hk _ (mem_of_lookup hl)
    obtain ⟨_, mid, hload⟩ := Expr.works_load table _ (Expr.ready_ofTree hk hvalue) d hd rfl
    have hrun := Stmt.assign_eq_ok.mpr ⟨slot, mid, hslot, hload, rfl⟩
    exact ⟨_, hrun, slotted_draft hd hk hrun⟩
  | @print _ _ value _ hvalue =>
    obtain ⟨_, next, hrun⟩ := Stmt.works_printValue (Expr.ready_ofTree hk hvalue)
      (fun _ _ hv ↦ hvalue.type_of_var hv ▸ hvalue.type_ne) d hd rfl
    exact ⟨next, hrun, slotted_draft (s := .print (.ofTree value)) hd hk hrun⟩
  | ifThen hcond hbody =>
    obtain ⟨tested, htest, hbranched, hknown⟩ := hcond.tests hd hk
    obtain ⟨ended, hdraft, _⟩ := StmtTyped.drafts hbody hbranched hknown
    obtain ⟨text, hland⟩ := run_land tested.distances.size (branched tested).codeSize ended
    have hrun := Stmt.ifThen_eq_ok.mpr ⟨tested, ended, htest, hdraft, hland⟩
    exact ⟨_, hrun, slotted_draft hd hk hrun⟩
  | whileDo hcond hbody =>
    obtain ⟨tested, htest, hbranched, hknown⟩ := hcond.tests hd hk
    obtain ⟨ended, hdraft, _⟩ := StmtTyped.drafts hbody hbranched hknown
    obtain ⟨goes, hback⟩ := run_branchBack d.codeSize ended
    obtain ⟨lands, hland⟩ := run_land tested.distances.size (branched tested).codeSize _
    have hrun := Stmt.whileDo_eq_ok.mpr ⟨tested, ended, _, htest, hdraft, hback, hland⟩
    exact ⟨_, hrun, slotted_draft hd hk hrun⟩
  | @block _ inner _ _ body hbody =>
    obtain ⟨next, hrun, _⟩ := StmtsTyped.drafts hbody hd hk
    exact ⟨next, hrun, slotted_draft (s := .block (Stmt.ofTrees body)) hd hk hrun⟩

/-- Well-typed statements can be drafted, and then all that is in scope has a slot. -/
theorem StmtsTyped.drafts {table : ScopeTable} {names later : Bindings} {n last : Nat}
    {ts : Forest Resolved} (h : StmtsTyped table.typeOf names n ts later last) {d : Draft}
    (hd : d.WellFormed) (hk : ∀ b ∈ names, Slotted d.homes b.2) :
    ∃ next, (Stmt.draftAll table (Stmt.ofTrees ts)).run d = .ok () next ∧
      ∀ b ∈ later, Slotted next.homes b.2 := by
  cases h with
  | nil => exact ⟨d, rfl, hk⟩
  | cons hfirst hrest =>
    obtain ⟨mid, hmid, hknown⟩ := StmtTyped.drafts hfirst hd hk
    obtain ⟨next, hnext, hlater⟩ :=
      StmtsTyped.drafts hrest (Stmt.adds_draft table _ d mid hd hmid).sound hknown
    exact ⟨next, Stmt.draftAll_cons_eq_ok.mpr ⟨mid, hmid, hnext⟩, hlater⟩

end

/-- A well-typed program can be drafted. -/
theorem StmtTyped.draftsProgram {table : ScopeTable} {later : Bindings} {last : Nat}
    {t : Tree Resolved} (h : StmtTyped table.typeOf [] 0 t later last) :
    ∃ d, (Stmt.draftProgram table (Stmt.ofTree t)).run {} = .ok () d := by
  obtain ⟨next, hnext, _⟩ := h.drafts
    (Stmt.wellFormed_empty.addLine (.note .verbose "began code generation")) (by simp)
  exact ⟨_, Stmt.draftProgram_eq_ok.mpr ⟨next, hnext, rfl⟩⟩

end OnePage
