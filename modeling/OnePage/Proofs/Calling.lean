import OnePage.Proofs.Executing

/-!
# The calls of a drafting

Drafting a program calls itself on the statements and expressions inside it, each time on the draft
that there is by then. The calls are listed in the order in which they are made. Each statement has
one call, and each expression that is evaluated has one that computes it. When the program is
drafted, every call returns, and what it adds is part of the code of the program.
-/

namespace OnePage

open Drafting

/-- A call of drafting: code for a statement, or for an expression whose value is left in the
accumulator or in a slot. -/
inductive Call where
  | draft (statement : Stmt)
  | load (value : Expr)
  | toSlot (value : Expr)

namespace Call

/-- The call goes from one draft to another. -/
def Returns (table : ScopeTable) (d last : Draft) : Call → Prop
  | draft s => (s.draft table).run d = .ok () last
  | load e => (e.load table).run d = .ok () last
  | toSlot e => ∃ slot, (e.toSlot table).run d = .ok slot last

/-- The statement that is drafted. -/
def statement? : Call → Option Stmt
  | draft s => some s
  | _ => none

/-- The expression whose value is computed: any that is loaded, and those that are put into a slot
without being loaded for it, which are variables and sums. -/
def computed? : Call → Option Expr
  | load e => some e
  | toSlot (.var symbol name) => some (.var symbol name)
  | toSlot (.sum first rest) => some (.sum first rest)
  | _ => none

/-- The expression on which a call is made. -/
def value? : Call → Option Expr
  | draft _ => none
  | load e | toSlot e => some e

/-- The statements that are drafted by some calls. -/
def statements (calls : List (Call × Draft)) : List Stmt := calls.filterMap (·.1.statement?)

/-- The expressions whose values are computed by some calls. -/
def values (calls : List (Call × Draft)) : List Expr := calls.filterMap (·.1.computed?)

/-- The expressions on which some calls are made. -/
def asked (calls : List (Call × Draft)) : List Expr := calls.filterMap (·.1.value?)

/-- A statement is drafted by some calls if one of them is on it. -/
theorem mem_statements {calls : List (Call × Draft)} {s : Stmt} :
    s ∈ statements calls ↔ ∃ first, (draft s, first) ∈ calls := by
  rw [statements, List.mem_filterMap]
  constructor
  · rintro ⟨⟨call, first⟩, hmem, hstatement⟩
    cases call with
    | draft _ =>
      cases hstatement
      exact ⟨first, hmem⟩
    | load _ | toSlot _ => cases hstatement
  · rintro ⟨first, hmem⟩
    exact ⟨_, hmem, rfl⟩

/-- What a call computes is what it is made on. -/
theorem value?_of_computed? {call : Call} {e : Expr} (h : call.computed? = some e) :
    call.value? = some e := by
  unfold computed? at h
  split at h
  · exact h
  · exact h
  · exact h
  · cases h

variable (xs ys : List (Call × Draft)) (d : Draft)

@[simp] private theorem statements_append :
    statements (xs ++ ys) = statements xs ++ statements ys :=
  List.filterMap_append

@[simp] private theorem statements_draft (s : Stmt) :
    statements ((.draft s, d) :: xs) = s :: statements xs := rfl

@[simp] private theorem statements_load (e : Expr) :
    statements ((.load e, d) :: xs) = statements xs := rfl

@[simp] private theorem values_append : values (xs ++ ys) = values xs ++ values ys :=
  List.filterMap_append

@[simp] private theorem values_draft (s : Stmt) : values ((.draft s, d) :: xs) = values xs := rfl

@[simp] private theorem values_load (e : Expr) : values ((.load e, d) :: xs) = e :: values xs := rfl

@[simp] private theorem asked_append :
    asked (xs ++ ys) = asked xs ++ asked ys := List.filterMap_append

@[simp] private theorem asked_draft (s : Stmt) : asked ((.draft s, d) :: xs) = asked xs := rfl

@[simp] private theorem asked_load (e : Expr) : asked ((.load e, d) :: xs) = e :: asked xs := rfl

end Call

/-- The draft that a step leaves, whether it succeeds or not. -/
def Drafting.draftAfter {α : Type} (step : Drafting α) (d : Draft) : Draft :=
  match step.run d with
  | .ok _ next | .error _ next => next

private theorem Drafting.draftAfter_eq {α : Type} {step : Drafting α} {d next : Draft} {x : α}
    (h : step.run d = .ok x next) : draftAfter step d = next := by
  rw [draftAfter, h]

/-! ### Expressions -/

namespace Expr

/-- The call that puts an expression into a slot, with those that it makes, given the calls below
the expression. -/
def slotCalls (below : Draft → List (Call × Draft)) (e : Expr) (d : Draft) : List (Call × Draft) :=
  match e with
  | .var _ _ => [(.toSlot e, d)]
  | .sum _ _ => (.toSlot e, d) :: below d
  | _ => (.toSlot e, d) :: (.load e, d.addSlot none) :: below (d.addSlot none)

mutual

/-- The calls that loading an expression makes. -/
def calls (table : ScopeTable) : Expr → Draft → List (Call × Draft)
  | .sum first rest, d =>
    (.load first, d.addSlot none) :: (calls table first (d.addSlot none) ++
      termCalls table d.slots.size rest (draftAfter (keep (load table first)) d))
  | .compare _ x y, d =>
    slotCalls (calls table x) x d ++ slotCalls (calls table y) y (draftAfter (toSlot table x) d)
  | _, _ => []

/-- The calls that adding terms to a slot makes. -/
def termCalls (table : ScopeTable) (total : Nat) : List Expr → Draft → List (Call × Draft)
  | [], _ => []
  | e :: es, d => (.load e, d) :: (calls table e d ++
      termCalls table total es (added total (draftAfter (load table e) d)))

end

/-- Whether a condition is an equality, which is tested without being computed. -/
def isEquality : Expr → Bool
  | .compare true _ _ => true
  | _ => false

/-- The calls that testing a condition makes. -/
def testCalls (table : ScopeTable) (e : Expr) (d : Draft) : List (Call × Draft) :=
  if e.isEquality then calls table e d else slotCalls (calls table e) e d

mutual

/-- The expressions inside an expression. -/
def parts : Expr → List Expr
  | .sum first rest => first :: (parts first ++ partsAll rest)
  | .compare _ x y => x :: parts x ++ y :: parts y
  | _ => []

/-- Some expressions with those inside them. -/
def partsAll : List Expr → List Expr
  | [] => []
  | e :: es => e :: (parts e ++ partsAll es)

end

/-- The expressions of a condition that are evaluated. -/
def testParts (e : Expr) : List Expr := if e.isEquality then e.parts else e :: e.parts

/-- Putting an expression into a slot asks for the value of the expression and of its parts. -/
theorem values_slotCalls {below : Draft → List (Call × Draft)} {e : Expr}
    (h : ∀ d, Call.values (below d) = e.parts) (d : Draft) :
    Call.values (slotCalls below e d) = e :: e.parts := by
  cases e with
  | var symbol name => rfl
  | _ => exact congrArg (List.cons _) (h _)

mutual

/-- Each expression inside one that is loaded is computed by one call. -/
theorem values_calls (table : ScopeTable) (e : Expr) (d : Draft) :
    Call.values (e.calls table d) = e.parts := by
  cases e with
  | sum first rest =>
    rw [calls, parts, Call.values_load, Call.values_append, values_calls table first,
      values_termCalls table _ rest]
  | compare equal x y =>
    rw [calls, parts, Call.values_append, values_slotCalls (values_calls table x),
      values_slotCalls (values_calls table y)]
  | _ => rfl

private theorem values_termCalls (table : ScopeTable) (total : Nat) (es : List Expr) (d : Draft) :
    Call.values (termCalls table total es d) = partsAll es := by
  cases es with
  | nil => rfl
  | cons e es =>
    rw [termCalls, partsAll, Call.values_load, Call.values_append, values_calls table e,
      values_termCalls table total es]

end

private theorem values_testCalls (table : ScopeTable) (e : Expr) (d : Draft) :
    Call.values (e.testCalls table d) = e.testParts := by
  unfold testCalls testParts
  split
  · exact values_calls table e d
  · exact values_slotCalls (values_calls table e) d

private theorem asked_slotCalls {below : Draft → List (Call × Draft)} {e : Expr}
    (h : ∀ d, Call.asked (below d) ⊆ e.parts) (d : Draft) :
    Call.asked (slotCalls below e d) ⊆ e :: e.parts := by
  cases e with
  | var symbol name => exact List.Subset.refl _
  | sum first rest => exact List.cons_subset_cons _ (h d)
  | _ => exact List.cons_subset.mpr ⟨List.mem_cons_self .., List.cons_subset_cons _ (h _)⟩

mutual

/-- The calls that loading an expression makes are on the expressions inside it. -/
theorem asked_calls (table : ScopeTable) (e : Expr) (d : Draft) :
    Call.asked (e.calls table d) ⊆ e.parts := by
  cases e with
  | sum first rest =>
    rw [calls, parts, Call.asked_load, Call.asked_append]
    exact List.cons_subset_cons _ (append_subset_append (asked_calls table first _)
      (asked_termCalls table _ rest _))
  | compare equal x y =>
    rw [calls, parts, Call.asked_append]
    exact append_subset_append (asked_slotCalls (asked_calls table x) d)
      (asked_slotCalls (asked_calls table y) _)
  | _ => exact List.Subset.refl _

private theorem asked_termCalls (table : ScopeTable) (total : Nat) (es : List Expr) (d : Draft) :
    Call.asked (termCalls table total es d) ⊆ partsAll es := by
  cases es with
  | nil => exact List.Subset.refl _
  | cons e es =>
    rw [termCalls, partsAll, Call.asked_load, Call.asked_append]
    exact List.cons_subset_cons _ (append_subset_append (asked_calls table e d)
      (asked_termCalls table total es _))

end

private theorem asked_testCalls (table : ScopeTable) (e : Expr) (d : Draft) :
    Call.asked (e.testCalls table d) ⊆ e.testParts := by
  unfold testCalls testParts
  split
  · exact asked_calls table e d
  · exact asked_slotCalls (asked_calls table e) d

private theorem statements_slotCalls {below : Draft → List (Call × Draft)}
    (h : ∀ d, Call.statements (below d) = []) (e : Expr) (d : Draft) :
    Call.statements (slotCalls below e d) = [] := by
  cases e with
  | var symbol name => rfl
  | _ => exact h _

mutual

/-- No statement is inside an expression. -/
theorem statements_calls (table : ScopeTable) (e : Expr) (d : Draft) :
    Call.statements (e.calls table d) = [] := by
  cases e with
  | sum first rest =>
    rw [calls, Call.statements_load, Call.statements_append, statements_calls table first,
      statements_termCalls table _ rest]
    rfl
  | compare equal x y =>
    rw [calls, Call.statements_append, statements_slotCalls (statements_calls table x),
      statements_slotCalls (statements_calls table y)]
    rfl
  | _ => rfl

private theorem statements_termCalls (table : ScopeTable) (total : Nat) (es : List Expr)
    (d : Draft) :
    Call.statements (termCalls table total es d) = [] := by
  cases es with
  | nil => rfl
  | cons e es =>
    rw [termCalls, Call.statements_load, Call.statements_append, statements_calls table e,
      statements_termCalls table total es]
    rfl

end

private theorem statements_testCalls (table : ScopeTable) (e : Expr) (d : Draft) :
    Call.statements (e.testCalls table d) = [] := by
  unfold testCalls
  split
  · exact statements_calls table e d
  · exact statements_slotCalls (statements_calls table e) e d

end Expr

/-! ### Statements -/

/-- Whether an expression is printed as it is, without being computed first. -/
def Expr.isPrintable : Expr → Bool
  | .digit _ | .flag _ | .text _ | .var _ _ => true
  | _ => false

namespace Stmt

mutual

/-- The calls that drafting a statement makes. -/
def calls (table : ScopeTable) : Stmt → Draft → List (Call × Draft)
  | .block body, d => callsAll table body d
  | .assign _ value, d => (.load value, d) :: value.calls table d
  | .print value, d => if value.isPrintable then [] else value.slotCalls (value.calls table) d
  | .ifThen condition body, d | .whileDo condition body, d =>
    let start := branched (draftAfter (condition.condition table) d)
    condition.testCalls table d ++ (.draft body, start) :: calls table body start
  | .declare _, _ | .invalid _, _ => []

/-- The calls that drafting statements makes, one after the other. -/
def callsAll (table : ScopeTable) : List Stmt → Draft → List (Call × Draft)
  | [], _ => []
  | s :: ss, d =>
    (.draft s, d) :: (calls table s d ++ callsAll table ss (draftAfter (s.draft table) d))

end

/-- The calls of a whole program, each with the draft on which it is made. -/
def trace (table : ScopeTable) (program : Stmt) : List (Call × Draft) :=
  (.draft program, Draft.opened) :: program.calls table Draft.opened

mutual

/-- The statements inside a statement. -/
def parts : Stmt → List Stmt
  | .block body => partsAll body
  | .ifThen _ body | .whileDo _ body => body :: parts body
  | _ => []

/-- Some statements with those inside them. -/
def partsAll : List Stmt → List Stmt
  | [] => []
  | s :: ss => s :: (parts s ++ partsAll ss)

end

mutual

/-- The expressions inside a statement that are evaluated: all but those that are printed as they
are and the equality that a condition is. -/
def evaluated : Stmt → List Expr
  | .block body => evaluatedAll body
  | .assign _ value => value :: value.parts
  | .print value => if value.isPrintable then [] else value :: value.parts
  | .ifThen condition body | .whileDo condition body => condition.testParts ++ evaluated body
  | .declare _ | .invalid _ => []

/-- The expressions inside statements that are evaluated. -/
def evaluatedAll : List Stmt → List Expr
  | [] => []
  | s :: ss => evaluated s ++ evaluatedAll ss

end

mutual

/-- Each expression of a statement that is evaluated is computed by one call. -/
theorem values_calls (table : ScopeTable) (s : Stmt) (d : Draft) :
    Call.values (s.calls table d) = s.evaluated := by
  cases s with
  | block body => exact values_callsAll table body d
  | assign symbol value =>
    rw [calls, evaluated, Call.values_load, Expr.values_calls]
  | print value =>
    rw [calls, evaluated]
    split
    · rfl
    · exact Expr.values_slotCalls (Expr.values_calls table value) d
  | ifThen condition body | whileDo condition body =>
    rw [calls, evaluated, Call.values_append, Call.values_draft, Expr.values_testCalls,
      values_calls table body]
  | declare symbol | invalid e => rfl

private theorem values_callsAll (table : ScopeTable) (ss : List Stmt) (d : Draft) :
    Call.values (callsAll table ss d) = evaluatedAll ss := by
  cases ss with
  | nil => rfl
  | cons s ss =>
    rw [callsAll, evaluatedAll, Call.values_draft, Call.values_append, values_calls table s,
      values_callsAll table ss]

end

mutual

/-- The calls that drafting a statement makes are on expressions that are evaluated. -/
theorem asked_calls (table : ScopeTable) (s : Stmt) (d : Draft) :
    Call.asked (s.calls table d) ⊆ s.evaluated := by
  cases s with
  | block body => exact asked_callsAll table body d
  | assign symbol value => exact List.cons_subset_cons _ (Expr.asked_calls table value d)
  | print value =>
    rw [calls, evaluated]
    split
    · exact List.Subset.refl _
    · exact Expr.asked_slotCalls (Expr.asked_calls table value) d
  | ifThen condition body | whileDo condition body =>
    rw [calls, evaluated, Call.asked_append, Call.asked_draft]
    exact append_subset_append (Expr.asked_testCalls table condition d)
      (asked_calls table body _)
  | declare symbol | invalid e => exact List.Subset.refl _

private theorem asked_callsAll (table : ScopeTable) (ss : List Stmt) (d : Draft) :
    Call.asked (callsAll table ss d) ⊆ evaluatedAll ss := by
  cases ss with
  | nil => exact List.Subset.refl _
  | cons s ss =>
    rw [callsAll, evaluatedAll, Call.asked_draft, Call.asked_append]
    exact append_subset_append (asked_calls table s d) (asked_callsAll table ss _)

end

mutual

/-- Each statement inside a statement is drafted by one call. -/
theorem statements_calls (table : ScopeTable) (s : Stmt) (d : Draft) :
    Call.statements (s.calls table d) = s.parts := by
  cases s with
  | block body => exact statements_callsAll table body d
  | assign symbol value =>
    rw [calls, Call.statements_load, Expr.statements_calls]
    rfl
  | print value =>
    rw [calls]
    split
    · rfl
    · exact Expr.statements_slotCalls (Expr.statements_calls table value) value d
  | ifThen condition body | whileDo condition body =>
    rw [calls, parts, Call.statements_append, Call.statements_draft, Expr.statements_testCalls,
      statements_calls table body]
    rfl
  | declare symbol | invalid e => rfl

private theorem statements_callsAll (table : ScopeTable) (ss : List Stmt) (d : Draft) :
    Call.statements (callsAll table ss d) = partsAll ss := by
  cases ss with
  | nil => rfl
  | cons s ss =>
    rw [callsAll, partsAll, Call.statements_draft, Call.statements_append,
      statements_calls table s, statements_callsAll table ss]

end

end Stmt

/-! ### Calls return -/

/-- The call returns on a draft that another completes. -/
def Call.Returned (table : ScopeTable) (whole : Draft) (call : Call × Draft) : Prop :=
  call.2.WellFormed ∧ ∃ last, call.1.Returns table call.2 last ∧ last.Leads whole

namespace Expr

variable {table : ScopeTable} {whole : Draft}

/-- What is put into a slot by keeping what is loaded is loaded first. -/
theorem returned_kept {e : Expr} (hkeep : toSlot table e = keep (load table e))
    (h : ∀ d next, d.WellFormed → (load table e).run d = .ok () next → next.Leads whole →
      ∀ call ∈ e.calls table d, Call.Returned table whole call)
    {d next : Draft} {slot : Nat} (hd : d.WellFormed)
    (hrun : (toSlot table e).run d = .ok slot next) (hl : next.Leads whole) :
    ∀ call ∈ (.toSlot e, d) :: (.load e, d.addSlot none) :: e.calls table (d.addSlot none),
      Call.Returned table whole call := by
  have hslot : Call.Returned table whole (.toSlot e, d) := ⟨hd, next, ⟨slot, hrun⟩, hl⟩
  rw [hkeep] at hrun
  obtain ⟨rfl, mid, hload, rfl⟩ := keep_eq_ok.mp hrun
  have hmid := hl.of_addLine
  have hd' := hd.addSlot none
  exact List.forall_mem_cons.mpr ⟨hslot, List.forall_mem_cons.mpr
    ⟨⟨hd', mid, hload, hmid⟩, h _ _ hd' hload hmid⟩⟩

/-- The call that puts an expression into a slot returns with all that it makes, if the calls of
loading the expression do. -/
theorem returned_slotCalls {e : Expr}
    (h : ∀ d next, d.WellFormed → (load table e).run d = .ok () next → next.Leads whole →
      ∀ call ∈ e.calls table d, Call.Returned table whole call)
    {d next : Draft} {slot : Nat} (hd : d.WellFormed)
    (hrun : (toSlot table e).run d = .ok slot next) (hl : next.Leads whole) :
    ∀ call ∈ slotCalls (e.calls table) e d, Call.Returned table whole call := by
  cases e with
  | var symbol name =>
    exact List.forall_mem_singleton.mpr ⟨hd, next, ⟨slot, hrun⟩, hl⟩
  | sum first rest =>
    exact List.forall_mem_cons.mpr ⟨⟨hd, next, ⟨slot, hrun⟩, hl⟩,
      h d next hd (load_sum_eq_ok.mpr ⟨slot, hrun⟩) hl⟩
  | digit value | flag value | text value => exact returned_kept (by rw [toSlot, load]) h hd hrun hl
  | compare equal x y => exact returned_kept (toSlot_compare equal x y) h hd hrun hl
  | oddCompare operator | invalid err => cases hrun

/-- The calls of two operands return. -/
theorem returned_operands {x y : Expr}
    (hx : ∀ d next, d.WellFormed → (load table x).run d = .ok () next → next.Leads whole →
      ∀ call ∈ x.calls table d, Call.Returned table whole call)
    (hy : ∀ d next, d.WellFormed → (load table y).run d = .ok () next → next.Leads whole →
      ∀ call ∈ y.calls table d, Call.Returned table whole call)
    (equal : Bool) {d last : Draft} {j k : Nat} (hd : d.WellFormed)
    (h : Operands table x y d j k last) (hl : last.Leads whole) :
    ∀ call ∈ calls table (.compare equal x y) d, Call.Returned table whole call := by
  obtain ⟨mid, hj, hk⟩ := h.drafted
  have hmid := (builds_toSlot table x d j mid hd hj).1
  have hlast := (builds_toSlot table y mid k last hmid.sound hk).1
  rw [calls, draftAfter_eq hj]
  exact List.forall_mem_append.mpr
    ⟨returned_slotCalls hx hd hj (hlast.grows.leads hl), returned_slotCalls hy hmid.sound hk hl⟩

mutual

/-- The calls that loading an expression makes return if it does. -/
theorem returned_calls (table : ScopeTable) (whole : Draft) (e : Expr) (d next : Draft)
    (hd : d.WellFormed) (h : (load table e).run d = .ok () next) (hl : next.Leads whole) :
    ∀ call ∈ e.calls table d, Call.Returned table whole call := by
  cases e with
  | sum first rest =>
    obtain ⟨slot, hslot⟩ := load_sum_eq_ok.mp h
    obtain ⟨mid, hkeep, hacc⟩ := addUp_eq_ok.mp (toSlot_sum_eq_ok.mp hslot).2
    obtain ⟨hmid, hlt⟩ := builds_keep (builds_load table first) d slot mid hd hkeep
    have hlmid := (builds_accumulate (builds_loads table rest) hmid.sound hlt hacc).grows.leads hl
    have hterms := returned_termCalls table whole slot rest mid next hmid.sound hlt hacc hl
    rw [calls, draftAfter_eq hkeep]
    obtain ⟨rfl, loaded, hload, rfl⟩ := keep_eq_ok.mp hkeep
    have hd' := hd.addSlot none
    have hfirst := returned_calls table whole first _ loaded hd' hload hlmid.of_addLine
    exact List.forall_mem_cons.mpr ⟨⟨hd', loaded, hload, hlmid.of_addLine⟩,
      List.forall_mem_append.mpr ⟨hfirst, hterms⟩⟩
  | compare equal x y =>
    obtain ⟨j, k, last, hops, hload⟩ := load_compare_eq_ok.mp h
    rw [run_loadComparison] at hload
    cases hload
    have hllast := hl.of_addLine.of_addLine.of_addLine.of_addLine.of_addLine
    exact returned_operands (returned_calls table whole x) (returned_calls table whole y) equal hd
      hops hllast
  | _ => exact fun call hcall ↦ absurd hcall List.not_mem_nil

private theorem returned_termCalls (table : ScopeTable) (whole : Draft) (total : Nat)
    (es : List Expr) (d next : Draft) (hd : d.WellFormed) (htotal : total < d.slots.size)
    (h : (accumulate total (loads table es)).run d = .ok () next) (hl : next.Leads whole) :
    ∀ call ∈ termCalls table total es d, Call.Returned table whole call := by
  cases es with
  | nil => exact fun call hcall ↦ absurd hcall List.not_mem_nil
  | cons e es =>
    obtain ⟨mid, hload, hrest⟩ := accumulate_cons_eq_ok.mp h
    have hmid := builds_load table e d mid hd hload
    have htotal' : total < mid.slots.size := Nat.lt_of_lt_of_le htotal hmid.grows.slots
    have hadded := valuePiece_added hmid.sound htotal'
    have hnext := builds_accumulate (builds_loads table es) hadded.sound htotal' hrest
    have hlmid := (hadded.trans hnext).grows.leads hl
    rw [termCalls, draftAfter_eq hload]
    exact List.forall_mem_cons.mpr ⟨⟨hd, mid, hload, hlmid⟩, List.forall_mem_append.mpr
      ⟨returned_calls table whole e d mid hd hload hlmid,
        returned_termCalls table whole total es _ next hadded.sound htotal' hrest hl⟩⟩

end

private theorem returned_testCalls {e : Expr} {d next : Draft} (hd : d.WellFormed)
    (h : (condition table e).run d = .ok () next) (hl : next.Leads whole) :
    ∀ call ∈ e.testCalls table d, Call.Returned table whole call := by
  unfold testCalls
  by_cases he : ∃ x y, e = .compare true x y
  · obtain ⟨x, y, rfl⟩ := he
    obtain ⟨j, k, last, hops, rfl⟩ := condition_eq_ok.mp h
    change ∀ call ∈ calls table (.compare true x y) d, _
    exact returned_operands (returned_calls table whole x) (returned_calls table whole y) true hd
      hops hl.of_addLine.of_addLine
  · simp only [not_exists] at he
    obtain ⟨slot, last, hslot, rfl⟩ := (condition_slot_eq_ok he).mp h
    have hne : ¬ e.isEquality = true := by
      unfold isEquality
      split
      · exact absurd rfl (he _ _)
      · exact Bool.false_ne_true
    rw [if_neg hne]
    exact returned_slotCalls (returned_calls table whole e) hd hslot hl.of_addLine.of_addLine

end Expr

namespace Stmt

variable {table : ScopeTable} {whole : Draft}

/-- The statement is a body that is run under a condition, once or again and again. -/
inductive Guards : Stmt → Expr → Stmt → Prop where
  | ifThen (condition : Expr) (body : Stmt) : Guards (.ifThen condition body) condition body
  | whileDo (condition : Expr) (body : Stmt) : Guards (.whileDo condition body) condition body

/-- A statement under a condition is its condition, a branch, its body and what closes it, after
which the branch lands. -/
theorem Guards.drafts {s body : Stmt} {condition : Expr} {d next : Draft}
    (hs : s.Guards condition body) (hd : d.WellFormed)
    (h : (draft table s).run d = .ok () next) : ∃ tested ended closing text,
      (condition.condition table).run d = .ok () tested ∧ tested.WellFormed ∧
      (draft table body).run (branched tested) = .ok () ended ∧
      (branched tested).Extends ended ∧ ended.Extends closing ∧
      next = closing.landed text tested.distances.size
        (UInt8.ofNat (closing.codeSize - (branched tested).codeSize)) := by
  cases hs with
  | ifThen =>
    obtain ⟨tested, ended, text, hcond, hbody, rfl⟩ := ifThen_drafts h
    have htested := (Expr.builds_condition table condition d tested hd hcond).sound
    have hended := adds_draft table body _ ended (htested.addJump.addLine _) hbody
    exact ⟨tested, ended, ended, text, hcond, htested, hbody, hended.grows, .refl ended, rfl⟩
  | whileDo =>
    obtain ⟨tested, ended, goes, text, hcond, hbody, rfl⟩ := whileDo_drafts h
    have htested := (Expr.builds_condition table condition d tested hd hcond).sound
    have hended := adds_draft table body _ ended (htested.addJump.addLine _) hbody
    have hback := (piece_compared hended.sound).grows.trans (extends_back _ d.codeSize goes)
    exact ⟨tested, ended, _, text, hcond, htested, hbody, hended.grows, hback, rfl⟩

private theorem Guards.returned_calls {s body : Stmt} {condition : Expr}
    (hs : s.Guards condition body)
    (hbody : ∀ d next, d.WellFormed → (draft table body).run d = .ok () next → next.Leads whole →
      ∀ call ∈ body.calls table d, Call.Returned table whole call)
    {d next : Draft} (hd : d.WellFormed) (h : (draft table s).run d = .ok () next)
    (hl : next.Leads whole) : ∀ call ∈ s.calls table d, Call.Returned table whole call := by
  obtain ⟨tested, ended, closing, text, hcond, hsound, hdraft, hended, hclosing, rfl⟩ :=
    hs.drafts hd h
  have hlended := hclosing.leads (hl.of_landed (distances_open (hended.trans hclosing)))
  have hltested := ((extends_branched tested).trans hended).leads hlended
  have hstart := hsound.addJump.addLine (.code (.bne (.jump tested.distances.size)))
  have hcalls : s.calls table d = condition.testCalls table d ++
      (.draft body, branched tested) :: body.calls table (branched tested) := by
    cases hs <;> rw [calls, draftAfter_eq hcond]
  rw [hcalls]
  exact List.forall_mem_append.mpr ⟨Expr.returned_testCalls hd hcond hltested,
    List.forall_mem_cons.mpr ⟨⟨hstart, ended, hdraft, hlended⟩,
      hbody _ ended hstart hdraft hlended⟩⟩

/-- A value that is not printed as it is is put into a slot first. -/
theorem print_drafts {value : Expr} {d next : Draft} (hvalue : ¬ value.isPrintable = true)
    (hd : d.WellFormed) (h : (draft table (.print value)).run d = .ok () next) :
    ∃ slot mid, (value.toSlot table).run d = .ok slot mid ∧ mid.Extends next := by
  cases value with
  | digit _ | flag _ | text _ | var _ _ => exact absurd rfl hvalue
  | sum first rest =>
    obtain ⟨slot, mid, hslot, hprint⟩ := run_bind_eq_ok.mp h
    obtain ⟨hmid, hk⟩ := Expr.builds_toSlot table _ d slot mid hd hslot
    exact ⟨slot, mid, hslot, (valuePiece_printNumber hmid.sound hk hprint).grows⟩
  | compare _ _ _ | oddCompare _ | invalid _ =>
    obtain ⟨slot, mid, hslot, hprint⟩ := run_bind_eq_ok.mp h
    obtain ⟨hmid, hk⟩ := Expr.builds_toSlot table _ d slot mid hd hslot
    exact ⟨slot, mid, hslot, (valuePiece_printFlag hmid.sound hk hprint).grows⟩

mutual

/-- The calls that drafting a statement makes return if it does. -/
theorem returned_calls (table : ScopeTable) (whole : Draft) (s : Stmt) (d next : Draft)
    (hd : d.WellFormed) (h : (draft table s).run d = .ok () next) (hl : next.Leads whole) :
    ∀ call ∈ s.calls table d, Call.Returned table whole call := by
  cases s with
  | block body => exact returned_callsAll table whole body d next hd h hl
  | assign symbol value =>
    obtain ⟨slot, mid, _, hload, rfl⟩ := assign_eq_ok.mp h
    exact List.forall_mem_cons.mpr ⟨⟨hd, mid, hload, hl.of_addLine⟩,
      Expr.returned_calls table whole value d mid hd hload hl.of_addLine⟩
  | print value =>
    rw [calls]
    split
    · exact fun call hcall ↦ absurd hcall List.not_mem_nil
    · next hvalue =>
      obtain ⟨slot, mid, hslot, hgrows⟩ := print_drafts hvalue hd h
      exact Expr.returned_slotCalls (Expr.returned_calls table whole value) hd hslot
        (hgrows.leads hl)
  | ifThen condition body =>
    exact (Guards.ifThen condition body).returned_calls (returned_calls table whole body) hd h hl
  | whileDo condition body =>
    exact (Guards.whileDo condition body).returned_calls (returned_calls table whole body) hd h hl
  | declare symbol | invalid e => exact fun call hcall ↦ absurd hcall List.not_mem_nil

private theorem returned_callsAll (table : ScopeTable) (whole : Draft) (ss : List Stmt)
    (d next : Draft)
    (hd : d.WellFormed) (h : (draftAll table ss).run d = .ok () next) (hl : next.Leads whole) :
    ∀ call ∈ callsAll table ss d, Call.Returned table whole call := by
  cases ss with
  | nil => exact fun call hcall ↦ absurd hcall List.not_mem_nil
  | cons s ss =>
    obtain ⟨mid, hs, hss⟩ := draftAll_cons_eq_ok.mp h
    have hmid := adds_draft table s d mid hd hs
    have hlmid := (adds_draftAll table ss mid next hmid.sound hss).grows.leads hl
    rw [callsAll, draftAfter_eq hs]
    exact List.forall_mem_cons.mpr ⟨⟨hd, mid, hs, hlmid⟩, List.forall_mem_append.mpr
      ⟨returned_calls table whole s d mid hd hs hlmid,
        returned_callsAll table whole ss mid next hmid.sound hss hl⟩⟩

end

/-- When a program is drafted, all of its calls return. -/
theorem returned_trace {program : Stmt} {d : Draft}
    (h : (draft table program).run Draft.opened = .ok () d) :
    ∀ call ∈ program.trace table, Call.Returned table d call :=
  List.forall_mem_cons.mpr ⟨⟨Draft.wellFormed_opened, d, h, .refl d⟩,
    returned_calls table d program _ d Draft.wellFormed_opened h (.refl d)⟩

/-- A program has a call for each of its statements, itself first. -/
theorem statements_trace (table : ScopeTable) (program : Stmt) :
    Call.statements (program.trace table) = program :: program.parts := by
  rw [trace, Call.statements_draft, statements_calls]

/-- A program has a call for each of its expressions that are evaluated. -/
theorem values_trace (table : ScopeTable) (program : Stmt) :
    Call.values (program.trace table) = program.evaluated := by
  rw [trace, Call.values_draft, values_calls]

/-- The calls of a program on expressions are on those that are evaluated. -/
theorem asked_trace (table : ScopeTable) (program : Stmt) :
    Call.asked (program.trace table) ⊆ program.evaluated :=
  asked_calls table program Draft.opened

end Stmt

end OnePage
