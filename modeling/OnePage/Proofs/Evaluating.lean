import OnePage.Proofs.Executing

/-!
# Running the code of expressions

The code of an expression leaves its value in the accumulator, or in a slot, whatever else is on the
page: each way of drafting code is shown to do so from the parts it is put together from. What is
asked of the byte that stands for a value is left open, so that it may be the byte that the
expression computes or any byte that stands for what the expression means.
-/

namespace OnePage

namespace Built

open Instruction Drafting OnePage.Expr

section Defs

variable (b : Built) (good : SymbolId → UInt8 → Prop)

/-- The step drafts code that leaves a byte with the property in the accumulator. -/
def Loads (step : Drafting Unit) (P : UInt8 → Prop) : Prop :=
  ∀ d next m, d.WellFormed → step.run d = .ok () next → next.Leads b.whole → b.At d m →
    b.Stores good d.homes m → ∃ last, b.Moves d next m last ∧ P last.a

/-- The step drafts code that leaves a byte with the property in the slot it gives. -/
def Fills (step : Drafting Nat) (P : UInt8 → Prop) : Prop :=
  ∀ d slot next m, d.WellFormed → step.run d = .ok slot next → next.Leads b.whole → b.At d m →
    b.Stores good d.homes m → ∃ last, b.Moves d next m last ∧ P (b.slot last slot)

end Defs

variable {b : Built} {good : SymbolId → UInt8 → Prop} {table : ScopeTable} {P Q R : UInt8 → Prop}

/-- Loading a known byte leaves that byte. -/
theorem loads_const {n : UInt8} (hn : P n) : b.Loads good (loadConst n) P := by
  intro d next m _ hrun hl hat _
  cases hrun
  exact ⟨_, hat.emit hl rfl, hn⟩

/-- Loading a text puts it on the page and leaves its address. -/
theorem loads_text {s : String} (hs : (b.texts.lookup s).isSome → P (b.layout.address s)) :
    b.Loads good (loadText s) P := by
  intro d next m _ hrun hl hat _
  rw [run_loadText] at hrun
  cases hrun
  have hplace := hl.of_addLine
  have hskip : b.Moves d (d.addLine (.place s)) m m := hat.skip (by simp) (Nat.le_refl _)
  exact ⟨_, hskip.trans (hskip.arrives.emit hl rfl), hs (placed hplace)⟩

/-- Loading a variable leaves a byte that is good for it. -/
theorem loads_var {symbol : SymbolId} {name : String} (h : ∀ byte, good symbol byte → P byte) :
    b.Loads good (load table (.var symbol name)) P := by
  intro d next m _ hrun hl hat hstores
  obtain ⟨slot, hlookup, rfl⟩ := load_var_eq_ok.mp hrun
  exact ⟨_, hat.emit hl rfl, h _ (hstores symbol slot hlookup)⟩

/-- A variable stays where it is. -/
theorem fills_var {symbol : SymbolId} {name : String} (h : ∀ byte, good symbol byte → P byte) :
    b.Fills good (toSlot table (.var symbol name)) P := by
  intro d slot next m _ hrun _ hat hstores
  obtain ⟨rfl, hlookup⟩ := variableSlot_eq_ok.mp hrun
  exact ⟨m, hat.skip rfl (Nat.le_refl _), h _ (hstores symbol slot hlookup)⟩

/-- What is kept is in the slot and still in the accumulator. -/
theorem keep_runs {step : Drafting Unit} (h : b.Loads good step P) {d next : Draft} {slot : Nat}
    {m : Machine} (hd : d.WellFormed) (hrun : (keep step).run d = .ok slot next)
    (hl : next.Leads b.whole) (hat : b.At d m) (hstores : b.Stores good d.homes m) :
    ∃ last, b.Moves d next m last ∧ P last.a ∧ b.slot last slot = last.a := by
  obtain ⟨rfl, mid, hstep, rfl⟩ := keep_eq_ok.mp hrun
  have hmid := hl.of_addLine
  have htake : b.Moves d (d.addSlot none) m m := hat.skip rfl (by simp [Draft.addSlot])
  obtain ⟨loaded, hload, hv⟩ :=
    h (d.addSlot none) mid m (hd.addSlot none) hstep hmid htake.arrives hstores
  have hlt : d.slots.size < mid.slots.size :=
    Nat.lt_of_lt_of_le (by simp [Draft.addSlot]) hload.slots
  have hwhole : d.slots.size < b.whole.slots.size := Nat.lt_of_lt_of_le hlt hmid.slots
  refine ⟨_, (htake.trans hload).store hl (Nat.le_refl _) hlt, hv, ?_⟩
  rw [slot_after_sta hwhole _ hwhole, if_pos rfl]
  rfl

/-- What is loaded and then kept is in the slot. -/
theorem fills_keep {step : Drafting Unit} (h : b.Loads good step P) :
    b.Fills good (keep step) P := by
  intro d slot next m hd hrun hl hat hstores
  obtain ⟨last, hmoves, hv, hslot⟩ := keep_runs h hd hrun hl hat hstores
  exact ⟨last, hmoves, hslot ▸ hv⟩

/-- The steps draft code that leaves the bytes in the accumulator. -/
abbrev LoadsAll (b : Built) (good : SymbolId → UInt8 → Prop) (steps : List (Drafting Unit))
    (ns : List UInt8) : Prop :=
  List.Forall₂ (fun step n ↦ b.Loads good step (· = n) ∧ Builds step) steps ns

private theorem LoadsAll.builds {steps : List (Drafting Unit)} {ns : List UInt8}
    (h : LoadsAll b good steps ns) : ∀ step ∈ steps, Builds step := by
  induction h with
  | nil => simp
  | cons hstep _ ih => exact List.forall_mem_cons.mpr ⟨hstep.2, ih⟩

/-- Accumulating adds each byte to the slot, and leaves the sum in the accumulator too. -/
theorem accumulate_runs {steps : List (Drafting Unit)} {ns : List UInt8}
    (hs : LoadsAll b good steps ns) {d mid next : Draft} {m middle : Machine} {slot : Nat}
    (hd : d.WellFormed) (hmid : ValuePiece d mid) (hstores : b.Stores good d.homes m)
    (hlow : d.slots.size ≤ slot) (hhigh : slot < mid.slots.size)
    (hmoves : b.Moves d mid m middle) (hslot : b.slot middle slot = middle.a)
    (hrun : (accumulate slot steps).run mid = .ok () next) (hl : next.Leads b.whole) :
    ∃ last, b.Moves d next m last ∧ last.a = ns.foldl (· + ·) middle.a ∧
      b.slot last slot = last.a := by
  -- The slot and the accumulator both hold the sum so far.
  induction hs generalizing mid middle with
  | nil =>
    cases hrun
    exact ⟨middle, hmoves, rfl, hslot⟩
  | @cons step n steps ns hstep hsteps ih =>
    obtain ⟨loaded, hload, hrest⟩ := accumulate_cons_eq_ok.mp hrun
    have hloaded := hstep.2 mid loaded hmid.sound hload
    have hslot' : slot < loaded.slots.size := Nat.lt_of_lt_of_le hhigh hloaded.grows.slots
    have hadded := valuePiece_added hloaded.sound hslot'
    have hnext := builds_accumulate (LoadsAll.builds hsteps) hadded.sound hslot' hrest
    have hladded := hnext.grows.leads hl
    have hlloaded := hadded.grows.leads hladded
    have hldraft := (hmid.trans hloaded).grows.leads hlloaded
    have hvalues : b.Stores good mid.homes middle := by
      rw [hmid.homes_eq]
      exact hstores.kept hd hldraft hmoves.toCrosses
    obtain ⟨m₁, hmoves₁, hn⟩ :=
      hstep.1 mid loaded middle hmid.sound hload hlloaded hmoves.arrives hvalues
    have hkept : b.slot m₁ slot = middle.a := by
      rw [hmoves₁.kept slot (Nat.lt_of_lt_of_le hslot' hlloaded.slots) (.inl hhigh), hslot]
    have hadc := hmoves₁.arrives.emit hladded.of_addLine rfl
    have hstored := ((hmoves.trans hmoves₁).trans hadc).store hladded hlow hslot'
    have hwhole : slot < b.whole.slots.size := Nat.lt_of_lt_of_le hslot' hlloaded.slots
    obtain ⟨last, hlast, ha, hs⟩ := ih ((hmid.trans hloaded).trans hadded) hslot' hstored
      (by rw [slot_after_sta hwhole _ hwhole, if_pos rfl]; rfl) hrest
    refine ⟨last, hlast, ?_, hs⟩
    rw [ha, List.foldl_cons]
    congr 1
    change m₁.a + b.slot m₁ slot = middle.a + n
    rw [hkept, hn, UInt8.add_comm]

/-- A sum is added up in a slot, and left in the accumulator too. -/
theorem sum_runs {first : Expr} {rest : List Expr} {n : UInt8} {ns : List UInt8}
    (hf : b.Loads good (load table first) (· = n)) (hr : LoadsAll b good (loads table rest) ns)
    {d next : Draft} {slot : Nat} {m : Machine} (hd : d.WellFormed)
    (hrun : (toSlot table (.sum first rest)).run d = .ok slot next) (hl : next.Leads b.whole)
    (hat : b.At d m) (hstores : b.Stores good d.homes m) :
    ∃ last, b.Moves d next m last ∧ last.a = ns.foldl (· + ·) n ∧ b.slot last slot = last.a := by
  obtain ⟨mid, hkeep, hacc⟩ := addUp_eq_ok.mp (toSlot_sum_eq_ok.mp hrun).2
  obtain ⟨hmid, hslot⟩ := builds_keep (builds_load table first) d slot mid hd hkeep
  have hrest := builds_accumulate hr.builds hmid.sound hslot hacc
  have hlmid := hrest.grows.leads hl
  obtain ⟨middle, hmoves, hn, hmiddle⟩ := keep_runs hf hd hkeep hlmid hat hstores
  have hlow : d.slots.size ≤ slot := Nat.le_of_eq (keep_eq_ok.mp hkeep).1.symm
  obtain ⟨last, hlast, ha, hs⟩ :=
    accumulate_runs hr hd hmid hstores hlow hslot hmoves hmiddle hacc hl
  exact ⟨last, hlast, ha.trans (by rw [hn]), hs⟩

/-- Loading a sum leaves the sum of the bytes of its terms. -/
theorem loads_sum {first : Expr} {rest : List Expr} {n : UInt8} {ns : List UInt8}
    (hf : b.Loads good (load table first) (· = n)) (hr : LoadsAll b good (loads table rest) ns) :
    b.Loads good (load table (.sum first rest)) (· = ns.foldl (· + ·) n) := by
  intro d next m hd hrun hl hat hstores
  obtain ⟨slot, hslot⟩ := load_sum_eq_ok.mp hrun
  obtain ⟨last, hmoves, ha, _⟩ := sum_runs hf hr hd hslot hl hat hstores
  exact ⟨last, hmoves, ha⟩

/-- A sum put into a slot is the sum of the bytes of its terms. -/
theorem fills_sum {first : Expr} {rest : List Expr} {n : UInt8} {ns : List UInt8}
    (hf : b.Loads good (load table first) (· = n)) (hr : LoadsAll b good (loads table rest) ns) :
    b.Fills good (toSlot table (.sum first rest)) (· = ns.foldl (· + ·) n) := by
  intro d slot next m hd hrun hl hat hstores
  obtain ⟨last, hmoves, ha, hs⟩ := sum_runs hf hr hd hrun hl hat hstores
  exact ⟨last, hmoves, hs.trans ha⟩

/-- Both operands are in their slots once both are put there. -/
theorem operands_run {left right : Expr} (hleft : b.Fills good (toSlot table left) P)
    (hright : b.Fills good (toSlot table right) Q) {d last : Draft} {x y : Nat} {m : Machine}
    (hd : d.WellFormed) (h : Operands table left right d x y last) (hl : last.Leads b.whole)
    (hat : b.At d m) (hstores : b.Stores good d.homes m) :
    ∃ m', b.Moves d last m m' ∧ P (b.slot m' x) ∧ Q (b.slot m' y) := by
  obtain ⟨mid, hx, hy⟩ := h.drafted
  obtain ⟨hmid, hxlt⟩ := builds_toSlot table left d x mid hd hx
  obtain ⟨hlast, _⟩ := builds_toSlot table right mid y last hmid.sound hy
  have hlmid := hlast.grows.leads hl
  obtain ⟨m₁, hmoves₁, hv⟩ := hleft d x mid m hd hx hlmid hat hstores
  have hstores₁ : b.Stores good mid.homes m₁ := by
    rw [hmid.homes_eq]
    exact hstores.kept hd (hmid.grows.leads hlmid) hmoves₁.toCrosses
  obtain ⟨m₂, hmoves₂, hw⟩ := hright mid y last m₁ hmid.sound hy hl hmoves₁.arrives hstores₁
  refine ⟨m₂, hmoves₁.trans hmoves₂, ?_, hw⟩
  rw [hmoves₂.kept x (Nat.lt_of_lt_of_le hxlt hlmid.slots) (.inl hxlt)]
  exact hv

/-- Comparing slots finds out whether the bytes in them are equal. -/
theorem slotsCompared_runs {d : Draft} {x y : Nat} {m : Machine}
    (hl : (slotsCompared x y d).Leads b.whole) (hat : b.At d m) :
    ∃ last, b.Moves d (slotsCompared x y d) m last ∧ last.zero = (b.slot m x == b.slot m y) := by
  have hx := hat.emit hl.of_addLine rfl
  have hy := hx.arrives.emit hl rfl
  exact ⟨_, hx.trans hy, rfl⟩

/-- A comparison loads one or zero. -/
theorem loads_compare {equal : Bool} {left right : Expr}
    (hleft : b.Fills good (toSlot table left) P) (hright : b.Fills good (toSlot table right) Q)
    (h : ∀ x y, P x → Q y → R (bit ((x == y) == equal))) :
    b.Loads good (load table (.compare equal left right)) R := by
  intro d next m hd hrun hl hat hstores
  obtain ⟨x, y, last, hops, hload⟩ := load_compare_eq_ok.mp hrun
  rw [run_loadComparison] at hload
  cases hload
  have hlvalue := hl.of_addLine.of_addLine
  have hlcompared := hlvalue.of_addLine
  have hllast := hlcompared.of_addLine.of_addLine
  obtain ⟨m₁, hmoves₁, hv, hw⟩ := operands_run hleft hright hd hops hllast hat hstores
  obtain ⟨m₂, hmoves₂, hzero⟩ := slotsCompared_runs hlcompared hmoves₁.arrives
  have hvalue := hmoves₂.arrives.emit hlvalue rfl
  obtain ⟨m₃, hmoves₃, ha, _⟩ := hvalue.arrives.choose rfl rfl hl
  refine ⟨m₃, ((hmoves₁.trans hmoves₂).trans hvalue).trans hmoves₃, ?_⟩
  have hbit : m₃.a = bit ((b.slot m₁ x == b.slot m₁ y) == equal) := by
    rw [ha]
    change (if m₂.zero then bit equal else bit (!equal)) = _
    rw [hzero]
    cases (b.slot m₁ x == b.slot m₁ y) <;> cases equal <;> rfl
  rw [hbit]
  exact h _ _ hv hw

/-! ### Expressions that mean something -/

variable {values : SymbolId → Datum → Prop}

/-- Bytes that stand for values of one type are compared as the values are. -/
theorem Represents.beq_eq {v w : Datum} {x y : UInt8} (hv : b.Represents v x)
    (hw : b.Represents w y) (htype : v.type = w.type) : (x == y) = (v == w) := by
  rw [Bool.eq_iff_iff, beq_iff_eq, beq_iff_eq]
  exact hv.eq_iff hw htype

mutual

/-- The code that loads an expression leaves its value in the accumulator. -/
theorem loads_of_means {b : Built} {values : SymbolId → Datum → Prop} (table : ScopeTable)
    {e : Expr} {v : Datum} (h : e.Means values v) :
    b.Loads (b.Valued values) (load table e) (b.Represents v) := by
  cases h with
  | digit n => exact loads_const rfl
  | flag x => exact loads_const rfl
  | text hchars => exact loads_text fun hplaced ↦ ⟨rfl, hplaced, hchars⟩
  | var hv => exact loads_var fun _ hbyte ↦ hbyte _ hv
  | sum hf hr => exact loads_sum (loads_of_means table hf) (loadsAll_of_means table hr)
  | compare hl hr htype =>
    exact loads_compare (fills_of_means table hl) (fills_of_means table hr)
      fun x y hx hy ↦ congrArg (fun equal ↦ bit (equal == _)) (hx.beq_eq hy htype)

/-- The code that puts an expression into a slot leaves its value there. -/
theorem fills_of_means {b : Built} {values : SymbolId → Datum → Prop} (table : ScopeTable)
    {e : Expr} {v : Datum} (h : e.Means values v) :
    b.Fills (b.Valued values) (toSlot table e) (b.Represents v) := by
  cases h with
  | digit n => exact fills_keep (loads_const rfl)
  | flag x => exact fills_keep (loads_const rfl)
  | text hchars => exact fills_keep (loads_text fun hplaced ↦ ⟨rfl, hplaced, hchars⟩)
  | var hv => exact fills_var fun _ hbyte ↦ hbyte _ hv
  | sum hf hr => exact fills_sum (loads_of_means table hf) (loadsAll_of_means table hr)
  | compare hl hr htype =>
    rw [toSlot_compare]
    exact fills_keep (loads_compare (fills_of_means table hl) (fills_of_means table hr)
      fun x y hx hy ↦ congrArg (fun equal ↦ bit (equal == _)) (hx.beq_eq hy htype))

private theorem loadsAll_of_means {b : Built} {values : SymbolId → Datum → Prop}
    (table : ScopeTable) {es : List Expr} {ns : List UInt8} (h : MeansAll values es ns) :
    LoadsAll b (b.Valued values) (loads table es) ns := by
  cases h with
  | nil => exact .nil
  | @cons e _ _ _ he hes =>
    exact .cons ⟨loads_of_means table he, builds_load table e⟩ (loadsAll_of_means table hes)

end

/-- The code of a condition finds equality if the condition holds. -/
theorem condition_runs {e : Expr} {x : Bool} (h : e.Means values (.flag x)) {d next : Draft}
    {m : Machine} (hd : d.WellFormed) (hrun : (condition table e).run d = .ok () next)
    (hl : next.Leads b.whole) (hat : b.At d m) (hstores : b.Stores (b.Valued values) d.homes m) :
    ∃ last, b.Moves d next m last ∧ last.zero = x := by
  by_cases he : ∃ left right, e = .compare true left right
  · obtain ⟨left, right, rfl⟩ := he
    obtain ⟨x, y, last, hops, rfl⟩ := condition_eq_ok.mp hrun
    have hllast := hl.of_addLine.of_addLine
    cases h with
    | compare hleft hright htype =>
      obtain ⟨m₁, hmoves₁, hv, hw⟩ := operands_run (fills_of_means table hleft)
        (fills_of_means table hright) hd hops hllast hat hstores
      obtain ⟨m₂, hmoves₂, hzero⟩ := slotsCompared_runs hl hmoves₁.arrives
      exact ⟨m₂, hmoves₁.trans hmoves₂, by rw [hzero, hv.beq_eq hw htype, beq_true]⟩
  · simp only [not_exists] at he
    obtain ⟨slot, last, hslot, rfl⟩ := (condition_slot_eq_ok he).mp hrun
    have hlload := hl.of_addLine
    have hllast := hlload.of_addLine
    obtain ⟨m₁, hmoves₁, hv⟩ := fills_of_means table h d slot last m hd hslot hllast hat hstores
    have hload := hmoves₁.arrives.emit hlload rfl
    have hcompare := hload.arrives.emit hl rfl
    refine ⟨_, (hmoves₁.trans hload).trans hcompare, ?_⟩
    change (1 == b.slot m₁ slot) = x
    rw [show b.slot m₁ slot = bit x from hv]
    cases x <;> rfl

end Built

end OnePage
