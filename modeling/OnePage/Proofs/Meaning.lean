import Mathlib.Data.List.Forall2
import OnePage.Proofs.Interpreter
import OnePage.Proofs.Readiness

/-!
# The meaning of expressions

An expression with symbols has a value once its symbols have values. A well-typed tree has a value
of its type wherever the variables in scope have values of theirs, and that is the value of the
expression the tree stands for, however its sums are nested.
-/

namespace OnePage

namespace Expr

mutual

/-- The expression has the value, given those of symbols. -/
inductive Means (values : SymbolId → Datum → Prop) : Expr → Datum → Prop where
  | digit (n : UInt8) : Means values (.digit n) (.int n)
  | flag (b : Bool) : Means values (.flag b) (.flag b)
  | text {s : String} : (∀ c ∈ s.toList, isTextChar c) → Means values (.text s) (.text s)
  | var {symbol : SymbolId} {name : String} {v : Datum} : values symbol v →
      Means values (.var symbol name) v
  | sum {first : Expr} {rest : List Expr} {n : UInt8} {ns : List UInt8} :
      Means values first (.int n) → MeansAll values rest ns →
      Means values (.sum first rest) (.int (ns.foldl (· + ·) n))
  | compare {equal : Bool} {left right : Expr} {a b : Datum} : Means values left a →
      Means values right b → a.type = b.type →
      Means values (.compare equal left right) (.flag ((a == b) == equal))

/-- The expressions have the numbers as values. -/
inductive MeansAll (values : SymbolId → Datum → Prop) : List Expr → List UInt8 → Prop where
  | nil : MeansAll values [] []
  | cons {e : Expr} {es : List Expr} {n : UInt8} {ns : List UInt8} :
      Means values e (.int n) → MeansAll values es ns → MeansAll values (e :: es) (n :: ns)

end

variable {values : SymbolId → Datum → Prop}

private theorem MeansAll.append {es fs : List Expr} {ns ks : List UInt8} (h : MeansAll values es ns)
    (k : MeansAll values fs ks) : MeansAll values (es ++ fs) (ns ++ ks) := by
  induction es generalizing ns with
  | nil =>
    cases h
    exact k
  | cons e es ih =>
    cases h with
    | cons he hes => exact .cons he (ih hes)

/-- A number is the sum of the terms of its expression. -/
theorem Means.terms {e : Expr} {n : UInt8} (h : Means values e (.int n)) :
    ∃ first rest k ks, e.terms = first :: rest ∧ Means values first (.int k) ∧
      MeansAll values rest ks ∧ n = ks.foldl (· + ·) k := by
  cases h with
  | sum hf hr => exact ⟨_, _, _, _, rfl, hf, hr, rfl⟩
  | digit n => exact ⟨_, [], n, [], rfl, .digit n, .nil, rfl⟩
  | var hv => exact ⟨_, [], n, [], rfl, .var hv, .nil, rfl⟩

end Expr

namespace Interpreter

/-- The symbol is that of a name in scope, and the value is that of its variable. -/
def Bound (names : Bindings) (env : Env) (symbol : SymbolId) (v : Datum) : Prop :=
  ∃ p ∈ names.zip env, p.1.2 = symbol ∧ p.2.2 = v

/-- The variables are those of the names, and have values of their types. -/
def Fits (types : SymbolId → VarType) (names : Bindings) (env : Env) : Prop :=
  List.Forall₂ (fun b x ↦ x.1 = b.1 ∧ x.2.type = types b.2) names env

variable {types : SymbolId → VarType} {names : Bindings} {env : Env}

/-- A name in scope has a value, which is that of its symbol. -/
theorem Fits.lookup (h : Fits types names env) {name : String} {symbol : SymbolId}
    (hl : names.lookup name = some symbol) :
    ∃ v, env.lookup name = some v ∧ v.type = types symbol ∧ Bound names env symbol v := by
  induction h with
  | nil => cases hl
  | @cons b x names env hx _ ih =>
    obtain ⟨other, known⟩ := b
    obtain ⟨found, v⟩ := x
    obtain ⟨rfl, htype⟩ := hx
    by_cases he : name = found
    · subst he
      obtain rfl : known = symbol := by simpa [List.lookup_cons] using hl
      exact ⟨v, by simp, htype, _, List.mem_cons_self .., rfl, rfl⟩
    · have hl' : names.lookup name = some symbol := by
        simpa [List.lookup_cons, beq_false_of_ne he] using hl
      obtain ⟨w, hw, hwtype, p, hp, hsymbol, hvalue⟩ := ih hl'
      exact ⟨w, by simpa [List.lookup_cons, beq_false_of_ne he] using hw, hwtype, p,
        List.mem_cons_of_mem _ hp, hsymbol, hvalue⟩

end Interpreter

open Interpreter

/-- A well-typed expression has a value of its type, and so has what its tree stands for. -/
theorem ExprTyped.means {types : SymbolId → VarType} {names : Bindings} {t : Tree Resolved}
    {type : VarType} (h : ExprTyped types names t type) {env : Env} (hf : Fits types names env) :
    ∃ v, eval env t = some v ∧ v.type = type ∧ (Expr.ofTree t).Means (Bound names env) v := by
  induction h with
  | @digit m c hlexeme hc =>
    refine ⟨.int (UInt8.ofNat (c.toNat - '0'.toNat)), ?_, rfl, ?_⟩
    · simp [Tree.leaf, eval, evalToken, Mark.token, hlexeme, hc]
    · rw [Expr.ofTree_digit hlexeme hc]
      exact .digit _
  | @flag m value hlexeme =>
    cases value with
    | true | false =>
      refine ⟨.flag _, ?_, rfl, .flag _⟩
      simp [Tree.leaf, eval, evalToken, Mark.token, hlexeme, Stmt.flagWord]
  | @text value p hchars => exact ⟨.text value, rfl, rfl, .text hchars⟩
  | @var m symbol hl _ =>
    obtain ⟨v, hv, htype, hbound⟩ := hf.lookup hl
    exact ⟨v, hv, htype, .var hbound⟩
  | @sum m left right _ _ ihl ihr =>
    obtain ⟨a, ha, hatype, hameans⟩ := ihl
    obtain ⟨b, hb, hbtype, hbmeans⟩ := ihr
    cases a with
    | flag _ | text _ => cases hatype
    | int x =>
      cases b with
      | flag _ | text _ => cases hbtype
      | int y =>
        -- The tree nests sums; the expression has the terms of both sides in one list.
        obtain ⟨first, rest, k, ks, hterms, hfirst, hrest, rfl⟩ := hameans.terms
        obtain ⟨first', rest', j, js, hterms', hfirst', hrest', rfl⟩ := hbmeans.terms
        refine ⟨.int (ks.foldl (· + ·) k + js.foldl (· + ·) j), ?_, rfl, ?_⟩
        · simp only [eval, ha, hb]
          rfl
        · rw [Expr.ofTree_sum, hterms, hterms', List.cons_append, Expr.sumAll,
            ← foldl_add_append]
          exact .sum hfirst (hrest.append (.cons hfirst' hrest'))
  | @compare m left right type equal hlexeme _ _ ihl ihr =>
    obtain ⟨a, ha, hatype, hameans⟩ := ihl
    obtain ⟨b, hb, hbtype, hbmeans⟩ := ihr
    have htypes : a.type = b.type := hatype.trans hbtype.symm
    refine ⟨.flag ((a == b) == equal), ?_, rfl, ?_⟩
    · simp only [eval, ha, hb, operate, Mark.token, hlexeme, htypes]
      cases equal with
      | true => simp [compareSign]
      | false => simp [compareSign, bne]
    · rw [Expr.ofTree_compare hlexeme]
      exact .compare hameans hbmeans htypes

end OnePage
