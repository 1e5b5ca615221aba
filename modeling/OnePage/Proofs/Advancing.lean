import OnePage.Proofs.StatementPieces

/-!
# Code that only goes ahead

A branch goes ahead if its distance is at most the size of the code after it, so that it cannot go
around the page. Every branch that is drafted for an expression or for a print statement skips one
instruction, and the branch of a conditional statement skips its body. Only a loop branches back.
-/

namespace OnePage

open Instruction Drafting

namespace Flow

/-- Every branch goes ahead: no further than to the end of the code. -/
def Ahead : List (Instruction UInt8 UInt8) → Prop
  | [] => True
  | i :: code => (∀ distance, i = .bne distance → distance.toNat ≤ size code) ∧ Ahead code

private theorem Ahead.append {xs ys : List (Instruction UInt8 UInt8)} (h : Ahead xs)
    (k : Ahead ys) :
    Ahead (xs ++ ys) := by
  induction xs with
  | nil => exact k
  | cons i xs ih =>
    refine ⟨fun distance hi ↦ ?_, ih h.2⟩
    have hle := h.1 distance hi
    change distance.toNat ≤ size (xs ++ ys)
    rw [size_append]
    omega

/-- A branch inside code that goes ahead does not pass the end. -/
theorem Ahead.branch_le {front back : List (Instruction UInt8 UInt8)} {distance : UInt8}
    (h : Ahead (front ++ .bne distance :: back)) : distance.toNat ≤ size back := by
  induction front with
  | nil => exact h.1 distance rfl
  | cons i front ih => exact ih h.2

end Flow

/-- Whether an instruction is a branch. -/
def Instruction.isBranch {V A : Type} : Instruction V A → Bool
  | .bne _ => true
  | _ => false

/-- Code without branches goes ahead, wherever it is laid out. -/
theorem Layout.ahead_of_straight (layout : Layout) {code : List Code}
    (h : ∀ i ∈ code, i.isBranch = false) : Flow.Ahead (layout.resolveAll code) := by
  induction code with
  | nil => trivial
  | cons i code ih =>
    obtain ⟨hi, hcode⟩ := List.forall_mem_cons.mp h
    refine ⟨fun distance hbne ↦ ?_, ih hcode⟩
    cases i <;> cases hbne
    cases hi

/-- A piece whose branches go ahead. -/
structure Advances (d next : Draft) : Prop extends Piece d next where
  ahead : ∀ new layout, next.code = d.code ++ new → layout.Agrees next →
    Flow.Ahead (Layout.resolveAll layout new)

namespace Advances

/-- A piece that adds no branch goes ahead. -/
theorem straight {d next : Draft} (h : Piece d next)
    (hcount : next.code.countP isBranch = d.code.countP isBranch) : Advances d next where
  toPiece := h
  ahead new layout hnew _ := by
    rw [hnew, List.countP_append, Nat.add_eq_left, List.countP_eq_zero] at hcount
    exact layout.ahead_of_straight fun i hi ↦ Bool.eq_false_iff.mpr (hcount i hi)

private theorem refl {d : Draft} (h : d.WellFormed) : Advances d d := straight (.refl h) rfl

/-- Pieces that go ahead follow each other. -/
theorem trans {d mid next : Draft} (h : Advances d mid) (k : Advances mid next) :
    Advances d next where
  toPiece := h.toPiece.trans k.toPiece
  ahead new layout hnew hagrees := by
    obtain ⟨first, hfirst, _⟩ := h.added
    obtain ⟨second, hsecond, _⟩ := k.added
    obtain rfl : new = first ++ second := by
      rw [hsecond, hfirst, List.append_assoc] at hnew
      exact (List.append_cancel_left hnew).symm
    rw [Layout.resolveAll, List.map_append]
    exact (h.ahead first layout hfirst (hagrees.of_extends k.grows)).append
      (k.ahead second layout hsecond hagrees)

/-- A branch over the next instruction, which takes two bytes, goes ahead. -/
theorem skip {d : Draft} (h : d.WellFormed) {i : Code} (plain : Flow.isPlain i)
    (slots : i.slot? = none) (jumps : i.jump? = none) (wide : i.width = 2) :
    Advances d ((d.addLine (.code (.bne (.const 2)))).addLine (.code i)) where
  toPiece := (ValuePiece.skip h plain slots jumps wide).toPiece
  ahead new layout hnew _ := by
    have hcode : ((d.addLine (.code (.bne (.const 2)))).addLine (.code i)).code =
        d.code ++ [.bne (.const 2), i] := by simp
    obtain rfl : new = [.bne (.const 2), i] := List.append_cancel_left (hnew.symm.trans hcode)
    refine ⟨?_, layout.ahead_of_straight (List.forall_mem_singleton.mpr ?_)⟩
    · rintro _ ⟨rfl⟩
      change 2 ≤ size (layout.resolveAll [i])
      rw [layout.size_resolveAll, size_cons, wide]
      exact Nat.le_add_right 2 _
    · cases i <;> first | rfl | cases plain

/-- A branch that lands after a piece that goes ahead goes ahead with it. -/
theorem branchOver {d last : Draft} (h : Advances (branched d) last) (text : String) :
    Advances d (last.landed text d.distances.size
      (UInt8.ofNat (last.codeSize - (branched d).codeSize))) where
  toPiece := h.toPiece.branchOver (Stmt.ofNat_add_distance h.grows.codeSize_le) text
  ahead new layout hnew hagrees := by
    obtain ⟨body, hbody, _⟩ := h.added
    have hcode : last.code = d.code ++ .bne (.jump d.distances.size) :: body := by
      rw [hbody, code_branched, List.append_assoc, List.singleton_append]
    rw [code_landed] at hnew
    obtain rfl := List.append_cancel_left (hnew.symm.trans hcode)
    refine ⟨?_, h.ahead body layout hbody (agrees_of_landed h.grows text _ hagrees)⟩
    rintro _ ⟨rfl⟩
    have hsize : last.codeSize - (branched d).codeSize = size body := by
      rw [Draft.codeSize_eq, Draft.codeSize_eq, hbody, size_append, Nat.add_sub_cancel_left]
    change (layout.distance d.distances.size).toNat ≤ size (layout.resolveAll body)
    -- A distance that does not fit into a byte only gets smaller.
    rw [hagrees _ _ (distances_landed h.grows text _), hsize, layout.size_resolveAll,
      UInt8.toNat_ofNat']
    exact Nat.mod_le _ _

end Advances

/-- Whenever the step succeeds, what it adds goes ahead. -/
def Drafting.Forward {α : Type} (step : Drafting α) : Prop :=
  ∀ d x next, d.WellFormed → step.run d = .ok x next → Advances d next

namespace Expr

private theorem forward_loadConst (value : UInt8) : Forward (loadConst value) := by
  intro d _ next hd h
  refine .straight (builds_loadConst value d next hd h).toPiece ?_
  obtain rfl : next = d.addLine (.code (.lda (.const value))) := by
    cases h
    rfl
  simp [isBranch]

private theorem forward_loadText (value : String) : Forward (loadText value) := by
  intro d _ next hd h
  refine .straight (builds_loadText value d next hd h).toPiece ?_
  rw [run_loadText] at h
  cases h
  simp [isBranch]

/-- Storing what is loaded goes ahead if loading it does. -/
theorem forward_keep {step : Drafting Unit} (h : Forward step) : Forward (keep step) := by
  intro d slot next hd hrun
  obtain ⟨rfl, mid, hstep, rfl⟩ := keep_eq_ok.mp hrun
  have hslot : Advances d (d.addSlot none) := .straight (.slot hd none) rfl
  have hmid := h _ _ mid hslot.sound hstep
  have hlt : d.slots.size < mid.slots.size :=
    Nat.lt_of_lt_of_le (by simp [Draft.addSlot]) hmid.grows.slots
  have hstore := ValuePiece.address hmid.sound (i := .sta d.slots.size) rfl rfl hlt rfl
  exact (hslot.trans hmid).trans (.straight hstore.toPiece (by simp [isBranch]))

private theorem forward_accumulate {slot : Nat} {steps : List (Drafting Unit)}
    (h : ∀ step ∈ steps, Forward step) {d next : Draft} (hd : d.WellFormed)
    (hslot : slot < d.slots.size) (hrun : (accumulate slot steps).run d = .ok () next) :
    Advances d next := by
  induction steps generalizing d with
  | nil =>
    cases hrun
    exact .refl hd
  | cons step steps ih =>
    obtain ⟨mid, hstep, hrest⟩ := accumulate_cons_eq_ok.mp hrun
    obtain ⟨hfirst, hothers⟩ := List.forall_mem_cons.mp h
    have hmid := hfirst d () mid hd hstep
    have hslot' : slot < mid.slots.size := Nat.lt_of_lt_of_le hslot hmid.grows.slots
    have hadd : Advances mid (added slot mid) :=
      .straight (valuePiece_added hmid.sound hslot').toPiece (by simp [added, isBranch])
    exact (hmid.trans hadd).trans (ih hothers hadd.sound hslot' hrest)

private theorem forward_addUp {first : Drafting Unit} {rest : List (Drafting Unit)}
    (hf : Forward first) (hb : Builds first) (hr : ∀ step ∈ rest, Forward step) :
    Forward (addUp first rest) := by
  intro d slot next hd hrun
  obtain ⟨mid, hkeep, hacc⟩ := addUp_eq_ok.mp hrun
  have hmid := forward_keep hf d slot mid hd hkeep
  have hslot := (builds_keep hb d slot mid hd hkeep).2
  exact hmid.trans (forward_accumulate hr hmid.sound hslot hacc)

variable {table : ScopeTable}

private theorem advances_operands {left right : Expr} {d last : Draft} {x y : Nat}
    (hl : Forward (toSlot table left)) (hr : Forward (toSlot table right)) (hd : d.WellFormed)
    (h : Operands table left right d x y last) :
    Advances d (slotsCompared x y last) := by
  obtain ⟨hlast, hx, hy⟩ :=
    valuePiece_operands (builds_toSlot table left) (builds_toSlot table right) hd h
  obtain ⟨mid, hleft, hright⟩ := h.drafted
  have hmid := hl d x mid hd hleft
  have hcompared := valuePiece_slotsCompared hlast.sound hx hy
  exact (hmid.trans (hr mid y last hmid.sound hright)).trans
    (.straight hcompared.toPiece (by simp [slotsCompared, isBranch]))

private theorem forward_compare {equal : Bool} {left right : Expr}
    (hl : Forward (toSlot table left))
    (hr : Forward (toSlot table right)) : Forward (load table (.compare equal left right)) := by
  intro d _ next hd hrun
  obtain ⟨x, y, last, hops, hload⟩ := load_compare_eq_ok.mp hrun
  have hcompared := advances_operands hl hr hd hops
  have hvalue := ValuePiece.value hcompared.sound (i := .lda (.const (bit (!equal)))) rfl rfl rfl
  rw [run_loadComparison] at hload
  cases hload
  exact (hcompared.trans (.straight hvalue.toPiece (by simp [isBranch]))).trans
    (.skip hvalue.sound rfl rfl rfl rfl)

mutual

/-- The code that loads an expression goes ahead. -/
theorem forward_load (table : ScopeTable) (e : Expr) : Forward (load table e) := by
  cases e with
  | digit value =>
    rw [load]
    exact forward_loadConst value
  | flag value =>
    rw [load]
    exact forward_loadConst (bit value)
  | text value =>
    rw [load]
    exact forward_loadText value
  | var symbol name =>
    intro d _ next hd h
    refine .straight (builds_load table _ d next hd h).toPiece ?_
    obtain ⟨slot, _, rfl⟩ := load_var_eq_ok.mp h
    simp [isBranch]
  | sum first rest =>
    intro d _ next hd h
    obtain ⟨slot, h⟩ := load_sum_eq_ok.mp h
    exact forward_toSlot table (.sum first rest) d slot next hd h
  | compare equal left right =>
    exact forward_compare (forward_toSlot table left) (forward_toSlot table right)
  | oddCompare operator | invalid err =>
    intro d _ next _ h
    cases h

/-- The code that puts an expression into a slot goes ahead. -/
theorem forward_toSlot (table : ScopeTable) (e : Expr) : Forward (toSlot table e) := by
  cases e with
  | digit value =>
    rw [toSlot]
    exact forward_keep (forward_loadConst value)
  | flag value =>
    rw [toSlot]
    exact forward_keep (forward_loadConst (bit value))
  | text value =>
    rw [toSlot]
    exact forward_keep (forward_loadText value)
  | var symbol name =>
    intro d slot next hd h
    obtain ⟨rfl, _⟩ := variableSlot_eq_ok.mp h
    exact .refl hd
  | sum first rest =>
    intro d slot next hd h
    exact forward_addUp (forward_load table first) (builds_load table first)
      (forward_loads table rest) d slot next hd (toSlot_sum_eq_ok.mp h).2
  | compare equal left right =>
    rw [toSlot_compare]
    exact forward_keep (forward_compare (forward_toSlot table left) (forward_toSlot table right))
  | oddCompare operator | invalid err =>
    intro d slot next _ h
    cases h

private theorem forward_loads (table : ScopeTable) (es : List Expr) :
    ∀ step ∈ loads table es, Forward step := by
  cases es with
  | nil =>
    rw [loads]
    exact nofun
  | cons e es =>
    rw [loads]
    exact List.forall_mem_cons.mpr ⟨forward_load table e, forward_loads table es⟩

end

/-- The code that tests a condition goes ahead. -/
theorem forward_condition (table : ScopeTable) (e : Expr) : Forward (condition table e) := by
  intro d _ next hd h
  by_cases he : ∃ left right, e = .compare true left right
  · obtain ⟨left, right, rfl⟩ := he
    obtain ⟨x, y, last, hops, rfl⟩ := condition_eq_ok.mp h
    exact advances_operands (forward_toSlot table left) (forward_toSlot table right) hd hops
  · simp only [not_exists] at he
    obtain ⟨slot, last, hslot, rfl⟩ := (condition_slot_eq_ok he).mp h
    have hlast := forward_toSlot table e d slot last hd hslot
    have hk := (builds_toSlot table e d slot last hd hslot).2
    have htest := (ValuePiece.value hlast.sound (i := .ldx (.const 1)) rfl rfl rfl).trans
      (.address (hlast.sound.addLine _) (i := .cpx slot) rfl rfl hk rfl)
    exact hlast.trans (.straight htest.toPiece (by simp [isBranch]))

end Expr

namespace Stmt

/-- A system call branches nowhere. -/
theorem advances_callSystem {number : UInt8} {d next : Draft} (known : number = 1 ∨ number = 2)
    (hd : d.WellFormed) (h : (callSystem number).run d = .ok () next) : Advances d next := by
  refine .straight (builds_callSystem known d next hd h).toPiece ?_
  rw [run_callSystem] at h
  cases h
  simp [isBranch]

private theorem advances_printText {value : String} {d next : Draft} (hd : d.WellFormed)
    (h : (printText value).run d = .ok () next) : Advances d next := by
  refine .straight (builds_printText value d next hd h).toPiece ?_
  rw [run_printText, run_callSystem] at h
  cases h
  simp [isBranch]

private theorem advances_printNumber {slot : Nat} {d next : Draft} (hd : d.WellFormed)
    (hslot : slot < d.slots.size) (h : (printNumber slot).run d = .ok () next) :
    Advances d next := by
  refine .straight (valuePiece_printNumber hd hslot h).toPiece ?_
  rw [run_printNumber, run_callSystem] at h
  cases h
  simp [isBranch]

/-- Printing a truth value skips the address of one of the two words. -/
theorem advances_printFlag {slot : Nat} {d next : Draft} (hd : d.WellFormed)
    (hslot : slot < d.slots.size) (h : (printFlag slot).run d = .ok () next) :
    Advances d next := by
  rw [run_printFlag, flagLoaded] at h
  have htexts := (ValuePiece.place hd (flagWord true)).trans
    (.place (hd.addLine _) (flagWord false))
  have htest := (htexts.trans (.value htexts.sound (i := .ldx (.const 1)) rfl rfl rfl)).trans
    (.address (htexts.sound.addLine _) (i := .cpx slot) rfl rfl hslot rfl)
  have hno := htest.trans
    (.value htest.sound (i := .ldy (.text (flagWord false))) rfl rfl rfl)
  have hloaded := (Advances.straight hno.toPiece (by simp [isBranch])).trans
    (.skip (i := .ldy (.text (flagWord true))) hno.sound rfl rfl rfl rfl)
  exact hloaded.trans (advances_callSystem (.inr rfl) hloaded.sound h)

private theorem advances_printVariable {type : VarType} {name : String} {slot : Nat}
    {d next : Draft} (hd : d.WellFormed) (hslot : slot < d.slots.size)
    (h : (printVariable type name slot).run d = .ok () next) : Advances d next := by
  cases type with
  | int => exact advances_printNumber hd hslot h
  | string =>
    have hload := ValuePiece.address hd (i := .ldyAt slot) rfl rfl hslot rfl
    exact (Advances.straight hload.toPiece (by simp [isBranch])).trans
      (advances_callSystem (.inr rfl) hload.sound h)
  | boolean => exact advances_printFlag hd hslot h
  | none => cases h

private theorem forward_printValue (table : ScopeTable) (e : Expr) :
    Forward (printValue table e) := by
  intro d _ next hd h
  cases e with
  | digit value =>
    have hload := ValuePiece.value hd (i := .ldy (.const value)) rfl rfl rfl
    exact (Advances.straight hload.toPiece (by simp [isBranch])).trans
      (advances_callSystem (.inl rfl) hload.sound h)
  | flag value => exact advances_printText hd h
  | text value => exact advances_printText hd h
  | var symbol name =>
    obtain ⟨slot, hl, hprint⟩ := printValue_var_eq_ok.mp h
    exact advances_printVariable hd (hd.lookup_lt hl) hprint
  | sum first rest =>
    obtain ⟨slot, mid, hslot, hprint⟩ := run_bind_eq_ok.mp h
    have hmid := Expr.forward_toSlot table _ d slot mid hd hslot
    have hk := (Expr.builds_toSlot table _ d slot mid hd hslot).2
    exact hmid.trans (advances_printNumber hmid.sound hk hprint)
  | compare _ _ _ | oddCompare _ | invalid _ =>
    obtain ⟨slot, mid, hslot, hprint⟩ := run_bind_eq_ok.mp h
    have hmid := Expr.forward_toSlot table _ d slot mid hd hslot
    have hk := (Expr.builds_toSlot table _ d slot mid hd hslot).2
    exact hmid.trans (advances_printFlag hmid.sound hk hprint)

private theorem forward_declareVariable (table : ScopeTable) (symbol : SymbolId) :
    Forward (declareVariable table symbol) := by
  intro d _ next hd h
  refine .straight (adds_declareVariable table symbol d next hd h) ?_
  obtain ⟨text, hrun⟩ := run_declareVariable table symbol d
  rw [hrun] at h
  cases h
  have hdeclared : (declared symbol d).code = d.code := rfl
  unfold firstLoaded
  split <;> simp [hdeclared, isBranch]

private theorem forward_assign (table : ScopeTable) (symbol : SymbolId) (value : Expr) :
    Forward (draft table (.assign symbol value)) := by
  intro d _ next hd h
  obtain ⟨slot, mid, hl, hload, rfl⟩ := assign_eq_ok.mp h
  have hmid := Expr.forward_load table value d () mid hd hload
  have hslot : slot < mid.slots.size := Nat.lt_of_lt_of_le (hd.lookup_lt hl) hmid.grows.slots
  have hstore := ValuePiece.address hmid.sound (i := .sta slot) rfl rfl hslot rfl
  exact hmid.trans (.straight hstore.toPiece (by simp [isBranch]))

/-- A conditional statement goes ahead if its body does. -/
theorem forward_ifThen {table : ScopeTable} {condition : Expr} {body : Stmt}
    (hbody : Forward (draft table body)) : Forward (draft table (.ifThen condition body)) := by
  intro d _ next hd h
  obtain ⟨tested, ended, text, hcond, hdraft, rfl⟩ := ifThen_drafts h
  have htested := Expr.forward_condition table condition d () tested hd hcond
  exact htested.trans
    ((hbody _ () ended (htested.sound.addJump.addLine _) hdraft).branchOver text)

mutual

/-- Whether a statement has no loop in it. -/
def loopFree : Stmt → Bool
  | .block body => loopFreeAll body
  | .ifThen _ body => loopFree body
  | .whileDo _ _ => false
  | .declare _ | .assign _ _ | .print _ | .invalid _ => true

/-- Whether none of some statements has a loop in it. -/
def loopFreeAll : List Stmt → Bool
  | [] => true
  | s :: ss => loopFree s && loopFreeAll ss

end

mutual

/-- A statement without loops goes ahead. -/
theorem forward_draft (table : ScopeTable) (s : Stmt) (hs : s.loopFree = true) :
    Forward (draft table s) := by
  cases s with
  | block body => exact forward_draftAll table body hs
  | declare symbol => exact forward_declareVariable table symbol
  | assign symbol value => exact forward_assign table symbol value
  | print value => exact forward_printValue table value
  | ifThen condition body => exact forward_ifThen (forward_draft table body hs)
  | whileDo condition body => cases hs
  | invalid err =>
    intro d _ next _ h
    cases h

private theorem forward_draftAll (table : ScopeTable) (ss : List Stmt)
    (hss : loopFreeAll ss = true) :
    Forward (draftAll table ss) := by
  intro d _ next hd h
  cases ss with
  | nil =>
    cases h
    exact .refl hd
  | cons s ss =>
    obtain ⟨hfree, hothers⟩ := Bool.and_eq_true_iff.mp hss
    obtain ⟨mid, hs, hrest⟩ := draftAll_cons_eq_ok.mp h
    have hmid := forward_draft table s hfree d () mid hd hs
    exact hmid.trans (forward_draftAll table ss hothers mid () next hmid.sound hrest)

end

end Stmt

end OnePage
