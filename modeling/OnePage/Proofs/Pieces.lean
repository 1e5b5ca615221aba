import OnePage.Proofs.Steps

/-!
# What each drafting step adds

Every drafting step that succeeds adds a piece, for any tree whatever. Code for expressions declares
no variable and needs no zero slot; the slot it leaves a value in exists.
-/

namespace OnePage

open Instruction Drafting

/-- A piece that leaves the variables and the zero slot as they are. -/
structure ValuePiece (d next : Draft) : Prop extends Piece d next where
  homes_eq : next.homes = d.homes
  zero_eq : next.zero = d.zero

namespace ValuePiece

private theorem refl {d : Draft} (h : d.WellFormed) : ValuePiece d d := ⟨.refl h, rfl, rfl⟩

/-- Two pieces that leave the variables as they are make one that does. -/
theorem trans {d mid next : Draft} (h : ValuePiece d mid) (k : ValuePiece mid next) :
    ValuePiece d next :=
  ⟨h.toPiece.trans k.toPiece, k.homes_eq.trans h.homes_eq, k.zero_eq.trans h.zero_eq⟩

/-- A text to be placed is a piece that changes no variable. -/
theorem place {d : Draft} (h : d.WellFormed) (text : String) :
    ValuePiece d (d.addLine (.place text)) := ⟨.place h text, rfl, rfl⟩

private theorem slot {d : Draft} (h : d.WellFormed) (owner : Option SymbolId) :
    ValuePiece d (d.addSlot owner) := ⟨.slot h owner, rfl, rfl⟩

/-- One plain instruction with an immediate operand. -/
theorem value {d : Draft} (h : d.WellFormed) {i : Code} (plain : Flow.isPlain i)
    (slots : i.slot? = none) (jumps : i.jump? = none) : ValuePiece d (d.addLine (.code i)) :=
  ⟨.emit h plain (by simp [slots]) jumps, rfl, rfl⟩

/-- One plain instruction that addresses a slot. -/
theorem address {d : Draft} (h : d.WellFormed) {i : Code} {k : Nat} (plain : Flow.isPlain i)
    (slots : i.slot? = some k) (hk : k < d.slots.size) (jumps : i.jump? = none) :
    ValuePiece d (d.addLine (.code i)) := by
  refine ⟨.emit h plain ?_ jumps, rfl, rfl⟩
  intro n hn
  rw [slots, Option.mem_some_iff] at hn
  exact hn ▸ hk

/-- A branch over the next instruction, which is plain, has an immediate operand and so takes two
bytes. -/
theorem skip {d : Draft} (h : d.WellFormed) {i : Code} (plain : Flow.isPlain i)
    (slots : i.slot? = none) (jumps : i.jump? = none) (wide : i.width = 2) :
    ValuePiece d ((d.addLine (.code (.bne (.const 2)))).addLine (.code i)) := by
  refine ⟨.code ((Draft.Extends.addLine d _).trans (.addLine _ _)) ((h.addLine _).addLine _)
    (by simp : _ = d.code ++ [.bne (.const 2), i]) ?_ ?_ ?_, rfl, rfl⟩
  · intro j hj
    simp only [List.mem_cons, List.not_mem_nil, or_false] at hj
    rcases hj with rfl | rfl
    · simp [slot?, operand]
    · simp [slots]
  · intro j hj
    simp only [List.mem_cons, List.not_mem_nil, or_false] at hj
    rcases hj with rfl | rfl
    · rfl
    · exact jumps
  · intro layout
    have hclosed : Flow.Closed (size d.code + 2) [layout.resolve i] := by
      apply Flow.closed_plain
      cases i <;> simp_all [Flow.isPlain, Layout.resolve, mapOperands]
    refine hclosed.branchOver ?_
    rw [size_cons, size_nil, Layout.resolve, width_mapOperands, wide]
    simp [Layout.value, UInt8.ofNat_add]

end ValuePiece

/-- The slot found for a variable exists. -/
theorem Draft.WellFormed.lookup_lt {d : Draft} (h : d.WellFormed) {symbol : SymbolId}
    {slot : Nat} (hl : d.homes.lookup symbol = some slot) : slot < d.slots.size := by
  obtain ⟨before, after, hsplit, _⟩ := List.lookup_eq_some_iff.mp hl
  exact h.home_lt (symbol, slot) (by rw [hsplit]; simp)

namespace Expr

/-- Whenever the step succeeds, it adds a piece that leaves the variables as they are. -/
def Builds (step : Drafting Unit) : Prop :=
  ∀ d next, d.WellFormed → step.run d = .ok () next → ValuePiece d next

/-- Whenever the step succeeds, it adds such a piece and gives a slot that exists. -/
def BuildsSlot (step : Drafting Nat) : Prop :=
  ∀ d slot next, d.WellFormed → step.run d = .ok slot next →
    ValuePiece d next ∧ slot < next.slots.size

/-- Loading a known byte adds a piece. -/
theorem builds_loadConst (value : UInt8) : Builds (loadConst value) := by
  intro d next hd h
  cases h
  exact .value hd rfl rfl rfl

/-- Loading a text adds a piece. -/
theorem builds_loadText (value : String) : Builds (loadText value) := by
  intro d next hd h
  rw [run_loadText] at h
  cases h
  exact (ValuePiece.place hd value).trans (.value (hd.addLine _) rfl rfl rfl)

/-- Keeping what a piece loads adds a piece and gives a slot that exists. -/
theorem builds_keep {step : Drafting Unit} (h : Builds step) : BuildsSlot (keep step) := by
  intro d slot next hd hrun
  obtain ⟨rfl, mid, hstep, rfl⟩ := keep_eq_ok.mp hrun
  have hmid : ValuePiece (d.addSlot none) mid := h _ _ (hd.addSlot none) hstep
  have hslot : d.slots.size < mid.slots.size :=
    Nat.lt_of_lt_of_le (by simp [Draft.addSlot]) hmid.grows.slots
  exact ⟨((ValuePiece.slot hd none).trans hmid).trans (.address hmid.sound rfl rfl hslot rfl),
    hslot⟩

/-- Adding to a slot that exists is a piece. -/
theorem valuePiece_added {slot : Nat} {d : Draft} (hd : d.WellFormed)
    (hslot : slot < d.slots.size) :
    ValuePiece d (added slot d) :=
  (ValuePiece.address hd rfl rfl hslot rfl).trans (.address (hd.addLine _) rfl rfl hslot rfl)

/-- Adding the values of pieces to a slot that exists is a piece. -/
theorem builds_accumulate {slot : Nat} {steps : List (Drafting Unit)}
    (h : ∀ step ∈ steps, Builds step) {d next : Draft} (hd : d.WellFormed)
    (hslot : slot < d.slots.size) (hrun : (accumulate slot steps).run d = .ok () next) :
    ValuePiece d next := by
  induction steps generalizing d with
  | nil =>
    cases hrun
    exact .refl hd
  | cons step steps ih =>
    obtain ⟨mid, hstep, hrest⟩ := accumulate_cons_eq_ok.mp hrun
    have hmid : ValuePiece d mid := h step (List.mem_cons_self ..) d mid hd hstep
    have hslot' : slot < mid.slots.size := Nat.lt_of_lt_of_le hslot hmid.grows.slots
    have hadd := valuePiece_added hmid.sound hslot'
    exact (hmid.trans hadd).trans
      (ih (fun s hs ↦ h s (List.mem_cons_of_mem _ hs)) hadd.sound hslot' hrest)

private theorem builds_addUp {first : Drafting Unit} {rest : List (Drafting Unit)}
    (hf : Builds first) (hr : ∀ step ∈ rest, Builds step) : BuildsSlot (addUp first rest) := by
  intro d slot next hd hrun
  obtain ⟨mid, hkeep, hacc⟩ := addUp_eq_ok.mp hrun
  obtain ⟨hmid, hslot⟩ := builds_keep hf d slot mid hd hkeep
  have hrest := builds_accumulate hr hmid.sound hslot hacc
  exact ⟨hmid.trans hrest, Nat.lt_of_lt_of_le hslot hrest.grows.slots⟩

/-- Comparing two slots that exist is a piece. -/
theorem valuePiece_slotsCompared {d : Draft} (hd : d.WellFormed) {left right : Nat}
    (hl : left < d.slots.size) (hr : right < d.slots.size) :
    ValuePiece d (slotsCompared left right d) :=
  (ValuePiece.address hd rfl rfl hl rfl).trans (.address (hd.addLine _) rfl rfl hr rfl)

/-- Putting two operands into slots is a piece, and the slots exist. -/
theorem valuePiece_operands {table : ScopeTable} {left right : Expr} {d last : Draft} {x y : Nat}
    (hl : BuildsSlot (toSlot table left)) (hr : BuildsSlot (toSlot table right))
    (hd : d.WellFormed) (h : Operands table left right d x y last) :
    ValuePiece d last ∧ x < last.slots.size ∧ y < last.slots.size := by
  obtain ⟨mid, hleft, hright⟩ := h.drafted
  obtain ⟨hmid, hx⟩ := hl d x mid hd hleft
  obtain ⟨hlast, hy⟩ := hr mid y last hmid.sound hright
  exact ⟨hmid.trans hlast, Nat.lt_of_lt_of_le hx hlast.grows.slots, hy⟩

private theorem builds_compare {table : ScopeTable} {equal : Bool} {left right : Expr}
    (hl : BuildsSlot (toSlot table left)) (hr : BuildsSlot (toSlot table right)) :
    Builds (load table (.compare equal left right)) := by
  intro d next hd hrun
  obtain ⟨x, y, last, hops, hload⟩ := load_compare_eq_ok.mp hrun
  obtain ⟨hlast, hx, hy⟩ := valuePiece_operands hl hr hd hops
  have hcompared := valuePiece_slotsCompared hlast.sound hx hy
  have hvalue : ValuePiece _ ((slotsCompared x y last).addLine _) :=
    .value hcompared.sound (i := .lda (.const (bit (!equal)))) rfl rfl rfl
  rw [run_loadComparison] at hload
  cases hload
  exact ((hlast.trans hcompared).trans hvalue).trans (.skip hvalue.sound rfl rfl rfl rfl)

mutual

/-- Loading an expression computes. -/
theorem builds_load (table : ScopeTable) (e : Expr) : Builds (load table e) := by
  cases e with
  | digit value =>
    rw [load]
    exact builds_loadConst value
  | flag value =>
    rw [load]
    exact builds_loadConst (bit value)
  | text value =>
    rw [load]
    exact builds_loadText value
  | var symbol name =>
    intro d next hd h
    obtain ⟨slot, hl, rfl⟩ := load_var_eq_ok.mp h
    exact .address hd rfl rfl (hd.lookup_lt hl) rfl
  | sum first rest =>
    intro d next hd h
    obtain ⟨slot, h⟩ := load_sum_eq_ok.mp h
    exact (builds_toSlot table (.sum first rest) d slot next hd h).1
  | compare equal left right =>
    exact builds_compare (builds_toSlot table left) (builds_toSlot table right)
  | oddCompare operator =>
    intro d next _ h
    cases h
  | invalid err =>
    intro d next _ h
    cases h

/-- Putting an expression into a slot computes, and the slot exists. -/
theorem builds_toSlot (table : ScopeTable) (e : Expr) : BuildsSlot (toSlot table e) := by
  cases e with
  | digit value =>
    rw [toSlot]
    exact builds_keep (builds_loadConst value)
  | flag value =>
    rw [toSlot]
    exact builds_keep (builds_loadConst (bit value))
  | text value =>
    rw [toSlot]
    exact builds_keep (builds_loadText value)
  | var symbol name =>
    intro d slot next hd h
    obtain ⟨rfl, hl⟩ := variableSlot_eq_ok.mp h
    exact ⟨.refl hd, hd.lookup_lt hl⟩
  | sum first rest =>
    intro d slot next hd h
    exact builds_addUp (builds_load table first) (builds_loads table rest) d slot next hd
      (toSlot_sum_eq_ok.mp h).2
  | compare equal left right =>
    rw [toSlot_compare]
    exact builds_keep (builds_compare (builds_toSlot table left) (builds_toSlot table right))
  | oddCompare operator =>
    intro d slot next _ h
    cases h
  | invalid err =>
    intro d slot next _ h
    cases h

/-- Each step that loads one of some expressions adds a piece. -/
theorem builds_loads (table : ScopeTable) (es : List Expr) :
    ∀ step ∈ loads table es, Builds step := by
  cases es with
  | nil =>
    rw [loads]
    simp
  | cons e es =>
    rw [loads]
    intro step hstep
    rcases List.mem_cons.mp hstep with rfl | hstep
    · exact builds_load table e
    · exact builds_loads table es step hstep

end

/-- A condition computes. -/
theorem builds_condition (table : ScopeTable) (e : Expr) : Builds (condition table e) := by
  intro d next hd h
  by_cases he : ∃ left right, e = .compare true left right
  · obtain ⟨left, right, rfl⟩ := he
    obtain ⟨x, y, last, hops, rfl⟩ := condition_eq_ok.mp h
    obtain ⟨hlast, hx, hy⟩ :=
      valuePiece_operands (builds_toSlot table left) (builds_toSlot table right) hd hops
    exact hlast.trans (valuePiece_slotsCompared hlast.sound hx hy)
  · simp only [not_exists] at he
    obtain ⟨slot, last, hslot, rfl⟩ := (condition_slot_eq_ok he).mp h
    obtain ⟨hlast, hk⟩ := builds_toSlot table e d slot last hd hslot
    exact (hlast.trans (.value hlast.sound rfl rfl rfl)).trans
      (.address (hlast.sound.addLine _) rfl rfl hk rfl)

end Expr

end OnePage
