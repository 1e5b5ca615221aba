import OnePage.Proofs.Growth

/-!
# What drafting steps do

Each drafting step is described once: when it succeeds, and which draft it leaves. The statements
about code are drawn from these descriptions and do not open the steps again.
-/

namespace OnePage

open Instruction Drafting

namespace Drafting

private theorem run_note (text : String) (d : Draft) :
    (note text).run d = .ok () (d.addLine (.note .verbose text)) := rfl

/-- A variable has a slot once it is declared, and finding the slot changes nothing. -/
theorem variableSlot_eq_ok {table : ScopeTable} {symbol : SymbolId} {d next : Draft}
    {slot : Nat} : (variableSlot table symbol).run d = .ok slot next ↔
      next = d ∧ d.homes.lookup symbol = some slot := by
  unfold variableSlot
  rw [EStateM.run_bind, EStateM.run_get]
  dsimp only
  cases d.homes.lookup symbol with
  | none =>
    constructor
    · intro h
      cases h
    · rintro ⟨_, h⟩
      cases h
  | some known =>
    constructor
    · intro h
      cases h
      exact ⟨rfl, rfl⟩
    · rintro ⟨rfl, h⟩
      cases h
      rfl

/-- The draft in which the zero slot is known. -/
def withZero (d : Draft) : Draft :=
  match d.zero with
  | some _ => d
  | none => { d.addSlot none with zero := some d.slots.size }

/-- The zero slot is a new one if there is none yet. -/
theorem run_zeroSlot (d : Draft) :
    (zeroSlot).run d = .ok (d.zero.getD d.slots.size) (withZero d) := by
  unfold zeroSlot withZero
  rw [EStateM.run_bind, EStateM.run_get]
  dsimp only
  cases d.zero <;> rfl

/-- The zero slot is the one there was, or else the next new one. -/
theorem zero_withZero (d : Draft) : (withZero d).zero = some (d.zero.getD d.slots.size) := by
  unfold withZero
  cases h : d.zero with
  | none => rfl
  | some z => exact h

/-- Making the zero slot known adds no code. -/
theorem code_withZero (d : Draft) : (withZero d).code = d.code := by
  unfold withZero
  cases d.zero <;> rfl

/-- A system call loads its number and then is made. -/
theorem run_callSystem (number : UInt8) (d : Draft) : (callSystem number).run d =
    .ok () ((d.addLine (.code (.ldx (.const number)))).addLine (.code .sys)) := rfl

/-- The draft after a forward branch. -/
def branched (d : Draft) : Draft :=
  d.addJump.addLine (.code (.bne (.jump d.distances.size)))

private theorem run_branchForward (d : Draft) : branchForward.run d =
    .ok (d.distances.size, (branched d).codeSize) (branched d) := rfl

/-- A branch lands with a remark, and its distance is that from its origin to the end of the
code. -/
theorem run_land (jump origin : Nat) (d : Draft) : ∃ text, (land jump origin).run d =
    .ok () ((d.addLine (.note .verbose text)).landJump jump
      (UInt8.ofNat (d.codeSize - origin))) := ⟨_, rfl⟩

/-- The draft after the comparison that makes a branch back taken. -/
def compared (d : Draft) : Draft :=
  ((withZero d).addLine (.code (.ldx (.const 1)))).addLine
    (.code (.cpx (d.zero.getD d.slots.size)))

/-- A branch back compares so that it is always taken, and then goes back to the start. -/
theorem run_branchBack (start : Nat) (d : Draft) : ∃ text, (branchBack start).run d =
    .ok () (((compared d).addLine (.note .verbose text)).addLine
      (.code (.bne (.const (UInt8.ofNat start - UInt8.ofNat ((compared d).codeSize + 2)))))) := by
  unfold branchBack
  rw [EStateM.run_bind, run_zeroSlot]
  exact ⟨_, rfl⟩

end Drafting

namespace Expr

/-- Checking succeeds if each is an expression, and changes nothing. -/
theorem checkAll_eq_ok {es : List Expr} {d next : Draft} :
    (checkAll es).run d = .ok () next ↔ next = d ∧ ∀ e ∈ es, ∀ err, e ≠ .invalid err := by
  induction es with
  | nil =>
    constructor
    · intro h
      cases h
      simp
    · rintro ⟨rfl, _⟩
      rfl
  | cons e es ih =>
    have hrun : (checkAll (e :: es)).run d = (e.check >>= fun _ ↦ checkAll es).run d := rfl
    rw [hrun, EStateM.run_bind]
    cases e with
    | invalid err =>
      constructor
      · intro h
        cases h
      · rintro ⟨_, h⟩
        exact absurd rfl (h _ (List.mem_cons_self ..) err)
    | _ =>
      refine Iff.trans ih (and_congr_right fun _ ↦ ?_)
      simp

/-- Keeping a value takes a slot, runs the step and stores what it loaded. -/
theorem keep_eq_ok {step : Drafting Unit} {d next : Draft} {slot : Nat} :
    (keep step).run d = .ok slot next ↔ slot = d.slots.size ∧ ∃ mid,
      step.run (d.addSlot none) = .ok () mid ∧ next = mid.addLine (.code (.sta slot)) := by
  have hrun : (keep step).run d = (step >>= fun _ ↦ (do
      emit (.sta d.slots.size)
      return d.slots.size)).run (d.addSlot none) := rfl
  rw [hrun, run_bind_eq_ok]
  constructor
  · rintro ⟨_, mid, hstep, hrest⟩
    cases hrest
    exact ⟨rfl, mid, hstep, rfl⟩
  · rintro ⟨rfl, mid, hstep, rfl⟩
    exact ⟨(), mid, hstep, rfl⟩

/-- The draft after what was loaded is added to a slot. -/
def added (slot : Nat) (d : Draft) : Draft :=
  (d.addLine (.code (.adc slot))).addLine (.code (.sta slot))

/-- Values are added one after the other, each after it is loaded. -/
theorem accumulate_cons_eq_ok {slot : Nat} {step : Drafting Unit} {steps : List (Drafting Unit)}
    {d next : Draft} : (accumulate slot (step :: steps)).run d = .ok () next ↔
      ∃ mid, step.run d = .ok () mid ∧
        (accumulate slot steps).run (added slot mid) = .ok () next := by
  have hrun : (accumulate slot (step :: steps)).run d = (step >>= fun _ ↦ (do
      emit (.adc slot)
      emit (.sta slot)
      accumulate slot steps)).run d := rfl
  rw [hrun, run_bind_eq_ok]
  constructor
  · rintro ⟨_, mid, hstep, hrest⟩
    exact ⟨mid, hstep, hrest⟩
  · rintro ⟨mid, hstep, hrest⟩
    exact ⟨(), mid, hstep, hrest⟩

/-- Adding up keeps the first value and accumulates the others on it. -/
theorem addUp_eq_ok {first : Drafting Unit} {rest : List (Drafting Unit)} {d next : Draft}
    {slot : Nat} : (addUp first rest).run d = .ok slot next ↔ ∃ mid,
      (keep first).run d = .ok slot mid ∧ (accumulate slot rest).run mid = .ok () next := by
  unfold addUp
  rw [run_bind_eq_ok]
  constructor
  · rintro ⟨total, mid, hkeep, hrest⟩
    obtain ⟨_, last, hacc, hpure⟩ := run_bind_eq_ok.mp hrest
    cases hpure
    exact ⟨mid, hkeep, hacc⟩
  · rintro ⟨mid, hkeep, hacc⟩
    exact ⟨slot, mid, hkeep, run_bind_eq_ok.mpr ⟨(), next, hacc, rfl⟩⟩

/-- The draft after a comparison of two slots. -/
def slotsCompared (left right : Nat) (d : Draft) : Draft :=
  (d.addLine (.code (.ldxAt left))).addLine (.code (.cpx right))

/-- After a comparison the byte for a difference is loaded, and a branch then skips the byte for
equality. -/
theorem run_loadComparison (equal : Bool) (left right : Nat) (d : Draft) :
    (loadComparison equal left right).run d = .ok ()
      ((((slotsCompared left right d).addLine (.code (.lda (.const (bit (!equal)))))).addLine
        (.code (.bne (.const 2)))).addLine (.code (.lda (.const (bit equal))))) := rfl

/-- Loading a text places it and loads its address. -/
theorem run_loadText (value : String) (d : Draft) : (loadText value).run d =
    .ok () ((d.addLine (.place value)).addLine (.code (.lda (.text value)))) := rfl

variable {table : ScopeTable} {d next : Draft}

/-- Loading a variable succeeds just if it has a slot, and then loads that. -/
theorem load_var_eq_ok {symbol : SymbolId} {name : String} :
    (load table (.var symbol name)).run d = .ok () next ↔
      ∃ slot, d.homes.lookup symbol = some slot ∧
        next = d.addLine (.code (.ldaAt slot)) := by
  rw [load, run_bind_eq_ok]
  constructor
  · rintro ⟨slot, mid, hslot, hemit⟩
    obtain ⟨rfl, hl⟩ := variableSlot_eq_ok.mp hslot
    cases hemit
    exact ⟨slot, hl, rfl⟩
  · rintro ⟨slot, hl, rfl⟩
    exact ⟨slot, d, variableSlot_eq_ok.mpr ⟨rfl, hl⟩, rfl⟩

/-- A sum is added up if each of its terms is an expression. -/
theorem toSlot_sum_eq_ok {first : Expr} {rest : List Expr} {slot : Nat} :
    (toSlot table (.sum first rest)).run d = .ok slot next ↔
      (∀ e ∈ first :: rest, ∀ err, e ≠ .invalid err) ∧
        (addUp (load table first) (loads table rest)).run d = .ok slot next := by
  rw [toSlot, run_bind_eq_ok]
  constructor
  · rintro ⟨_, mid, hcheck, hadd⟩
    obtain ⟨rfl, hvalid⟩ := checkAll_eq_ok.mp hcheck
    exact ⟨hvalid, hadd⟩
  · rintro ⟨hvalid, hadd⟩
    exact ⟨(), d, checkAll_eq_ok.mpr ⟨rfl, hvalid⟩, hadd⟩

/-- A sum is loaded as it is put into a slot. -/
theorem load_sum_eq_ok {first : Expr} {rest : List Expr} :
    (load table (.sum first rest)).run d = .ok () next ↔
      ∃ slot, (toSlot table (.sum first rest)).run d = .ok slot next := by
  rw [load, toSlot, run_bind_eq_ok]
  constructor
  · rintro ⟨_, mid, hcheck, hrest⟩
    obtain ⟨slot, last, hadd, hpure⟩ := run_bind_eq_ok.mp
      (show (addUp (load table first) (loads table rest) >>= fun _ ↦ pure ()).run mid =
        .ok () next from hrest)
    cases hpure
    exact ⟨slot, run_bind_eq_ok.mpr ⟨(), mid, hcheck, hadd⟩⟩
  · rintro ⟨slot, h⟩
    obtain ⟨_, mid, hcheck, hadd⟩ := run_bind_eq_ok.mp h
    refine ⟨(), mid, hcheck, ?_⟩
    show (addUp (load table first) (loads table rest) >>= fun _ ↦ pure ()).run mid = .ok () next
    exact run_bind_eq_ok.mpr ⟨slot, next, hadd, rfl⟩

/-- Two operands are put into slots, the left one first. -/
structure Operands (table : ScopeTable) (left right : Expr) (d : Draft) (x y : Nat)
    (last : Draft) : Prop where
  valid : ∀ e ∈ [left, right], ∀ err, e ≠ .invalid err
  drafted : ∃ mid, (toSlot table left).run d = .ok x mid ∧
    (toSlot table right).run mid = .ok y last

private theorem operands_eq_ok {left right : Expr} {use : Nat → Nat → Drafting Unit} :
    (do
      checkAll [left, right]
      use (← toSlot table left) (← toSlot table right)).run d = .ok () next ↔
      ∃ x y last, Operands table left right d x y last ∧ (use x y).run last = .ok () next := by
  rw [run_bind_eq_ok]
  constructor
  · rintro ⟨_, start, hcheck, hrest⟩
    obtain ⟨rfl, hvalid⟩ := checkAll_eq_ok.mp hcheck
    obtain ⟨x, mid, hleft, hrest⟩ := run_bind_eq_ok.mp hrest
    obtain ⟨y, last, hright, huse⟩ := run_bind_eq_ok.mp hrest
    exact ⟨x, y, last, ⟨hvalid, mid, hleft, hright⟩, huse⟩
  · rintro ⟨x, y, last, ⟨hvalid, mid, hleft, hright⟩, huse⟩
    refine ⟨(), d, checkAll_eq_ok.mpr ⟨rfl, hvalid⟩, ?_⟩
    exact run_bind_eq_ok.mpr ⟨x, mid, hleft, run_bind_eq_ok.mpr ⟨y, last, hright, huse⟩⟩

/-- Loading a comparison succeeds just if its operands can be put into slots, which then are
compared. -/
theorem load_compare_eq_ok {equal : Bool} {left right : Expr} :
    (load table (.compare equal left right)).run d = .ok () next ↔ ∃ x y last,
      Operands table left right d x y last ∧
        (loadComparison equal x y).run last = .ok () next := by
  rw [load]
  exact operands_eq_ok

/-- A comparison is put into a slot by keeping what it loads. -/
theorem toSlot_compare (equal : Bool) (left right : Expr) :
    toSlot table (.compare equal left right) = keep (load table (.compare equal left right)) := by
  rw [toSlot, load]

/-- A test for equality succeeds just if its operands can be put into slots, and only compares
them. -/
theorem condition_eq_ok {left right : Expr} :
    (condition table (.compare true left right)).run d = .ok () next ↔ ∃ x y last,
      Operands table left right d x y last ∧ next = slotsCompared x y last := by
  rw [condition, operands_eq_ok]
  constructor
  · rintro ⟨x, y, last, hoperands, hcompare⟩
    cases hcompare
    exact ⟨x, y, last, hoperands, rfl⟩
  · rintro ⟨x, y, last, hoperands, rfl⟩
    exact ⟨x, y, last, hoperands, rfl⟩

/-- Any other condition is put into a slot, which is compared with one. -/
theorem condition_slot_eq_ok {e : Expr} (h : ∀ left right, e ≠ .compare true left right) :
    (condition table e).run d = .ok () next ↔ ∃ slot last,
      (toSlot table e).run d = .ok slot last ∧
        next = (last.addLine (.code (.ldx (.const 1)))).addLine (.code (.cpx slot)) := by
  rw [condition, run_bind_eq_ok]
  · constructor
    · rintro ⟨slot, last, hslot, hrest⟩
      cases hrest
      exact ⟨slot, last, hslot, rfl⟩
    · rintro ⟨slot, last, hslot, rfl⟩
      exact ⟨slot, last, hslot, rfl⟩
  · exact fun left right ↦ h left right

end Expr

namespace Stmt

variable {table : ScopeTable} {d next : Draft}

/-- Printing a text places it and calls with its address. -/
theorem run_printText (value : String) (d : Draft) : (printText value).run d =
    (callSystem 2).run ((d.addLine (.place value)).addLine (.code (.ldy (.text value)))) := rfl

/-- The draft after the word for the truth value in a slot is loaded. -/
def flagLoaded (slot : Nat) (d : Draft) : Draft :=
  ((((((d.addLine (.place (flagWord true))).addLine (.place (flagWord false))).addLine
    (.code (.ldx (.const 1)))).addLine (.code (.cpx slot))).addLine
      (.code (.ldy (.text (flagWord false))))).addLine (.code (.bne (.const 2)))).addLine
        (.code (.ldy (.text (flagWord true))))

/-- Printing a truth value calls with the address of its word. -/
theorem run_printFlag (slot : Nat) (d : Draft) :
    (printFlag slot).run d = (callSystem 2).run (flagLoaded slot d) := rfl

/-- Printing a number calls with the number itself. -/
theorem run_printNumber (slot : Nat) (d : Draft) : (printNumber slot).run d =
    (callSystem 1).run (d.addLine (.code (.ldyAt slot))) := rfl

/-- A variable is printed from its slot. -/
theorem printValue_var_eq_ok {symbol : SymbolId} {name : String} :
    (printValue table (.var symbol name)).run d = .ok () next ↔
      ∃ slot, d.homes.lookup symbol = some slot ∧
        (printVariable (table.typeOf symbol) name slot).run d = .ok () next := by
  rw [printValue, run_bind_eq_ok]
  constructor
  · rintro ⟨slot, mid, hslot, hprint⟩
    obtain ⟨rfl, hl⟩ := variableSlot_eq_ok.mp hslot
    exact ⟨slot, hl, hprint⟩
  · rintro ⟨slot, hl, hprint⟩
    exact ⟨slot, d, variableSlot_eq_ok.mpr ⟨rfl, hl⟩, hprint⟩

/-- The draft in which a new slot is a variable's. -/
def declared (symbol : SymbolId) (d : Draft) : Draft :=
  { d.addSlot (some symbol) with homes := (symbol, d.slots.size) :: d.homes }

/-- The draft after the first value of a variable of a type is loaded. -/
def firstLoaded (type : VarType) (d : Draft) : Draft :=
  if type = .string then (d.addLine (.place "")).addLine (.code (.lda (.text "")))
  else d.addLine (.code (.lda (.const 0)))

/-- A declaration stores the first value of the variable's type in its slot. -/
theorem run_declareVariable (table : ScopeTable) (symbol : SymbolId) (d : Draft) :
    ∃ text, (declareVariable table symbol).run d = .ok ()
      ((firstLoaded (table.typeOf symbol)
        ((declared symbol d).addLine (.note .verbose text))).addLine
          (.code (.sta d.slots.size))) := by
  unfold declareVariable firstLoaded
  by_cases h : table.typeOf symbol = .string
  · simp only [if_pos h]
    exact ⟨_, rfl⟩
  · simp only [if_neg h]
    exact ⟨_, rfl⟩

/-- An assignment succeeds just if its variable has a slot and its value can be loaded, and stores
it. -/
theorem assign_eq_ok {symbol : SymbolId} {value : Expr} :
    (draft table (.assign symbol value)).run d = .ok () next ↔ ∃ slot mid,
      d.homes.lookup symbol = some slot ∧ (value.load table).run d = .ok () mid ∧
        next = mid.addLine (.code (.sta slot)) := by
  rw [draft, run_bind_eq_ok]
  constructor
  · rintro ⟨slot, start, hslot, hrest⟩
    obtain ⟨rfl, hl⟩ := variableSlot_eq_ok.mp hslot
    obtain ⟨_, mid, hload, hemit⟩ := run_bind_eq_ok.mp hrest
    cases hemit
    exact ⟨slot, mid, hl, hload, rfl⟩
  · rintro ⟨slot, mid, hl, hload, rfl⟩
    refine ⟨slot, d, variableSlot_eq_ok.mpr ⟨rfl, hl⟩, ?_⟩
    exact run_bind_eq_ok.mpr ⟨(), mid, hload, rfl⟩

/-- A conditional is its test, a branch over its body, the body, and the branch landing after it. -/
theorem ifThen_eq_ok {condition : Expr} {body : Stmt} :
    (draft table (.ifThen condition body)).run d = .ok () next ↔ ∃ tested last,
      (condition.condition table).run d = .ok () tested ∧
        (draft table body).run (branched tested) = .ok () last ∧
          (land tested.distances.size (branched tested).codeSize).run last = .ok () next := by
  rw [draft, run_bind_eq_ok]
  constructor
  · rintro ⟨_, tested, hcond, hrest⟩
    rw [EStateM.run_bind, run_branchForward] at hrest
    obtain ⟨_, last, hbody, hland⟩ := run_bind_eq_ok.mp hrest
    exact ⟨tested, last, hcond, hbody, hland⟩
  · rintro ⟨tested, last, hcond, hbody, hland⟩
    refine ⟨(), tested, hcond, ?_⟩
    rw [EStateM.run_bind, run_branchForward]
    exact run_bind_eq_ok.mpr ⟨(), last, hbody, hland⟩

/-- A loop is a conditional with a branch back to its test at the end of its body. -/
theorem whileDo_eq_ok {condition : Expr} {body : Stmt} :
    (draft table (.whileDo condition body)).run d = .ok () next ↔ ∃ tested last back,
      (condition.condition table).run d = .ok () tested ∧
        (draft table body).run (branched tested) = .ok () last ∧
          (branchBack d.codeSize).run last = .ok () back ∧
            (land tested.distances.size (branched tested).codeSize).run back = .ok () next := by
  rw [draft, EStateM.run_bind, EStateM.run_get]
  dsimp only
  rw [run_bind_eq_ok]
  constructor
  · rintro ⟨_, tested, hcond, hrest⟩
    rw [EStateM.run_bind, run_branchForward] at hrest
    obtain ⟨_, last, hbody, hrest⟩ := run_bind_eq_ok.mp hrest
    obtain ⟨_, back, hback, hland⟩ := run_bind_eq_ok.mp hrest
    exact ⟨tested, last, back, hcond, hbody, hback, hland⟩
  · rintro ⟨tested, last, back, hcond, hbody, hback, hland⟩
    refine ⟨(), tested, hcond, ?_⟩
    rw [EStateM.run_bind, run_branchForward]
    exact run_bind_eq_ok.mpr ⟨(), last, hbody, run_bind_eq_ok.mpr ⟨(), back, hback, hland⟩⟩

/-- Statements are drafted one after the other. -/
theorem draftAll_cons_eq_ok {s : Stmt} {ss : List Stmt} :
    (draftAll table (s :: ss)).run d = .ok () next ↔
      ∃ mid, (draft table s).run d = .ok () mid ∧ (draftAll table ss).run mid = .ok () next := by
  rw [draftAll, run_bind_eq_ok]
  constructor
  · rintro ⟨_, mid, hs, hss⟩
    exact ⟨mid, hs, hss⟩
  · rintro ⟨mid, hs, hss⟩
    exact ⟨(), mid, hs, hss⟩

/-- A program is drafted between two remarks and ends by halting. -/
theorem draftProgram_eq_ok {program : Stmt} :
    (draftProgram table program).run d = .ok () next ↔ ∃ last,
      (draft table program).run (d.addLine (.note .verbose "began code generation")) =
        .ok () last ∧
      next = (last.addLine (.note .everything "end of program, writing BRK")).addLine
        (.code .brk) := by
  unfold draftProgram
  rw [EStateM.run_bind, run_note]
  dsimp only
  rw [run_bind_eq_ok]
  constructor
  · rintro ⟨_, last, hdraft, hrest⟩
    cases hrest
    exact ⟨last, hdraft, rfl⟩
  · rintro ⟨last, hdraft, rfl⟩
    exact ⟨(), last, hdraft, rfl⟩

end Stmt

end OnePage
