import Mathlib.Data.UInt
import OnePage.Proofs.Pieces

/-!
# What statements add

A branch that lands after the code it skips makes one piece with it, and so do the test of a loop,
its body and the branch back. From this every statement that is drafted adds a piece.
-/

namespace OnePage

open Instruction Drafting

/-- A forward branch is one instruction, with its distance still open. -/
theorem code_branched (d : Draft) :
    (branched d).code = d.code ++ [.bne (.jump d.distances.size)] := by
  simp [branched]

/-- A forward branch keeps what was drafted. -/
theorem extends_branched (d : Draft) : d.Extends (branched d) :=
  (Draft.Extends.addJump d).trans (.addLine _ _)

/-- The draft in which a branch lands at the end. -/
def Draft.landed (d : Draft) (text : String) (jump : Nat) (distance : UInt8) : Draft :=
  (d.addLine (.note .verbose text)).landJump jump distance

section Landing

variable {start d : Draft} (h : (branched start).Extends d) (text : String) (distance : UInt8)

include h

/-- A branch is open until it lands. -/
theorem distances_open : d.distances[start.distances.size]? = some none := by
  rw [h.landed _ (by simp [branched, Draft.addLine, Draft.addJump])]
  simp [branched, Draft.addLine, Draft.addJump]

private theorem extends_landed : start.Extends (d.landed text start.distances.size distance) :=
  (((extends_branched start).trans h).trans (.addLine d _)).landJump distance (Nat.le_refl _)

/-- A branch that has landed has its distance. -/
theorem distances_landed :
    (d.landed text start.distances.size distance).distances[start.distances.size]? =
      some (some distance) := by
  obtain ⟨hlt, _⟩ := Array.getElem?_eq_some_iff.mp (distances_open h)
  exact Array.getElem?_setIfInBounds_self_of_lt hlt

/-- What is settled stays so when the branch lands. -/
theorem settles_landed {i : Code} (hi : d.Settles i) :
    (d.landed text start.distances.size distance).Settles i where
  slot := hi.slot
  jump j hj := by
    obtain ⟨v, hv⟩ := hi.jump j hj
    have hne : start.distances.size ≠ j := by
      rintro rfl
      rw [distances_open h] at hv
      cases hv
    exact ⟨v, (Array.getElem?_setIfInBounds_ne hne).trans hv⟩

/-- A layout that knows the distance of the branch agrees with the draft before it landed. -/
theorem agrees_of_landed {layout : Layout}
    (k : layout.Agrees (d.landed text start.distances.size distance)) : layout.Agrees d := by
  intro j v hv
  have hne : start.distances.size ≠ j := by
    rintro rfl
    rw [distances_open h] at hv
    cases hv
  exact k j v ((Array.getElem?_setIfInBounds_ne hne).trans hv)

end Landing

/-- A branch that lands adds no code. -/
theorem code_landed (d : Draft) (text : String) (jump : Nat) (distance : UInt8) :
    (d.landed text jump distance).code = d.code := by
  simp [Draft.landed]

/-- A branch that lands takes no bytes. -/
theorem codeSize_landed (d : Draft) (text : String) (jump : Nat) (distance : UInt8) :
    (d.landed text jump distance).codeSize = d.codeSize :=
  d.codeSize_addLine_note .verbose text

/-- A forward branch takes two bytes. -/
theorem codeSize_branched (d : Draft) : (branched d).codeSize = d.codeSize + 2 :=
  d.addJump.codeSize_addLine_code _

/-- A branch that lands after a piece makes a piece with it. -/
theorem Piece.branchOver {d last : Draft} {forward : UInt8} (h : Piece (branched d) last)
    (leads : UInt8.ofNat (branched d).codeSize + forward = UInt8.ofNat last.codeSize)
    (text : String) : Piece d (last.landed text d.distances.size forward) := by
  obtain ⟨body, hcode, hsettled, hclosed⟩ := h.added
  have hlands := distances_landed h.grows text forward
  refine ⟨extends_landed h.grows text _, (h.sound.addLine _).landJump _ _,
    .bne (.jump d.distances.size) :: body, ?_, ?_, ?_⟩
  · rw [code_landed, hcode, code_branched, List.append_assoc, List.singleton_append]
  · intro i hi
    rcases List.mem_cons.mp hi with rfl | hi
    · refine ⟨by simp [slot?, operand], ?_⟩
      intro j hj
      obtain rfl : d.distances.size = j := by simpa [jump?, operand] using hj
      exact ⟨_, hlands⟩
    · exact settles_landed h.grows text _ (hsettled i hi)
  · intro layout hagrees
    have hbody := hclosed layout (agrees_of_landed h.grows text _ hagrees)
    change Flow.Closed _ (.bne (layout.distance d.distances.size) :: layout.resolveAll body)
    rw [code_branched, size_append] at hbody
    rw [Draft.codeSize_eq, Draft.codeSize_eq, hcode, code_branched, size_append,
      size_append, size_append] at leads
    refine hbody.branchOver ?_
    rw [hagrees _ _ hlands, layout.size_resolveAll]
    exact leads

/-- The draft with a branch back to an earlier place. -/
def Draft.back (d : Draft) (start : Nat) (text : String) : Draft :=
  (d.addLine (.note .verbose text)).addLine
    (.code (.bne (.const (UInt8.ofNat start - UInt8.ofNat (d.codeSize + 2)))))

/-- A branch back is one instruction, whose distance wraps around the page. -/
theorem code_back (d : Draft) (start : Nat) (text : String) : (d.back start text).code =
    d.code ++ [.bne (.const (UInt8.ofNat start - UInt8.ofNat (d.codeSize + 2)))] := by
  simp [Draft.back]

/-- A branch back takes two bytes. -/
theorem codeSize_back (d : Draft) (start : Nat) (text : String) :
    (d.back start text).codeSize = d.codeSize + 2 := by
  rw [Draft.back, Draft.codeSize_addLine_code, Draft.codeSize_addLine_note]
  rfl

/-- A branch back keeps what was drafted. -/
theorem extends_back (d : Draft) (start : Nat) (text : String) : d.Extends (d.back start text) :=
  (Draft.Extends.addLine d _).trans (.addLine _ _)

/-- A loop is a piece: the test, the branch out of the loop, the body and the branch back. -/
theorem Piece.loop {d tested last : Draft} {forward : UInt8} (ht : Piece d tested)
    (hb : Piece (branched tested) last) (goes lands : String)
    (leads : UInt8.ofNat (branched tested).codeSize + forward =
      UInt8.ofNat (last.back d.codeSize goes).codeSize) :
    Piece d ((last.back d.codeSize goes).landed lands tested.distances.size forward) := by
  obtain ⟨test, htest, tsettled, tclosed⟩ := ht.added
  obtain ⟨body, hbody, bsettled, bclosed⟩ := hb.added
  have hback := extends_back last d.codeSize goes
  have hgrows := hb.grows.trans hback
  have hlands := distances_landed hgrows lands forward
  have hend := extends_landed hgrows lands forward
  refine ⟨ht.grows.trans hend, (((hb.sound.addLine _).addLine _).addLine _).landJump _ _,
    test ++ .bne (.jump tested.distances.size) :: (body ++
      [.bne (.const (UInt8.ofNat d.codeSize - UInt8.ofNat (last.codeSize + 2)))]), ?_, ?_, ?_⟩
  · rw [code_landed, code_back, hbody, code_branched, htest]
    simp only [List.append_assoc, List.cons_append, List.nil_append]
  · intro i hi
    rcases List.mem_append.mp hi with hi | hi
    · exact (tsettled i hi).extend hend
    rcases List.mem_cons.mp hi with rfl | hi
    · refine ⟨by simp [slot?, operand], ?_⟩
      intro j hj
      obtain rfl : tested.distances.size = j := by simpa [jump?, operand] using hj
      exact ⟨_, hlands⟩
    rcases List.mem_append.mp hi with hi | hi
    · exact settles_landed hgrows lands _ ((bsettled i hi).extend hback)
    · rw [List.mem_singleton.mp hi]
      exact ⟨by simp [slot?, operand], by simp [jump?, operand]⟩
  · intro layout hagrees
    have hx := tclosed layout (hagrees.of_extends hend)
    have hy := bclosed layout ((agrees_of_landed hgrows lands _ hagrees).of_extends hback)
    have htested : (branched tested).codeSize = size d.code + size test + 2 := by
      rw [codeSize_branched, Draft.codeSize_eq, htest, size_append]
    have hlast : last.codeSize = size d.code + size test + 2 + size body := by
      rw [Draft.codeSize_eq, hbody, size_append, ← Draft.codeSize_eq, htested]
    rw [← Draft.codeSize_eq, htested] at hy
    rw [codeSize_back, hlast, htested] at leads
    -- The distances were found from the draft; a layout changes no size.
    rw [← layout.size_resolveAll test] at hy leads hlast
    rw [← layout.size_resolveAll body] at leads hlast
    have hloop := hx.loop hy leads (add_sub_cancel _ _)
    rw [← hlast, ← d.codeSize_eq, ← hagrees _ _ hlands] at hloop
    rw [Layout.resolveAll, List.map_append, List.map_cons, List.map_append, ← d.codeSize_eq]
    exact hloop

/-- Taking the zero slot is a piece. -/
theorem Piece.withZero {d : Draft} (h : d.WellFormed) : Piece d (withZero d) := by
  cases hz : d.zero with
  | some z =>
    rw [Drafting.withZero, hz]
    exact .refl h
  | none =>
    rw [Drafting.withZero, hz]
    have hslot := h.addSlot none
    refine .of_code_eq ⟨List.prefix_refl _, by simp [Draft.addSlot], Nat.le_refl _, fun _ _ ↦ rfl,
      List.suffix_refl _, fun _ hv ↦ .inl hv, by simp [hz], ?_⟩
      ⟨hslot.home_lt, hslot.homes_ne, ?_, ?_⟩ rfl
    · rintro z ⟨⟩
      exact .inr (Nat.le_refl _)
    · rintro z ⟨⟩
      simp [Draft.addSlot]
    · rintro z ⟨⟩ v hv
      exact Nat.ne_of_lt (h.home_lt v hv)

/-- Giving a variable a new slot is a piece. -/
theorem Piece.declared {d : Draft} (h : d.WellFormed) (symbol : SymbolId) :
    Piece d (Stmt.declared symbol d) := by
  have hslot := h.addSlot (some symbol)
  have hnew : ∀ v ∈ d.homes, d.slots.size ≠ v.2 :=
    fun v hv ↦ (Nat.ne_of_lt (h.home_lt v hv)).symm
  have hgrows := Draft.Extends.addSlot d (some symbol)
  refine .of_code_eq ⟨hgrows.lines, hgrows.slots, hgrows.jumps, hgrows.landed,
    List.suffix_cons _ _, ?_, hgrows.zero, hgrows.zeroLater⟩ ⟨?_, ?_, hslot.zero_lt, ?_⟩ rfl
  · intro v hv
    rcases List.mem_cons.mp hv with rfl | hv
    · exact .inr (Nat.le_refl _)
    · exact .inl hv
  · intro v hv
    rcases List.mem_cons.mp hv with rfl | hv
    · simp [Stmt.declared, Draft.addSlot]
    · exact hslot.home_lt v hv
  · exact List.pairwise_cons.mpr ⟨hnew, h.homes_ne⟩
  · intro z hz v hv
    rcases List.mem_cons.mp hv with rfl | hv
    · exact (Nat.ne_of_lt (h.zero_lt z hz)).symm
    · exact h.zero_ne z hz v hv

/-- A system call with a number the machine knows computes. -/
theorem ValuePiece.call {d : Draft} (h : d.WellFormed) {number : UInt8}
    (known : number = 1 ∨ number = 2) :
    ValuePiece d ((d.addLine (.code (.ldx (.const number)))).addLine (.code .sys)) := by
  refine ⟨.code ((Draft.Extends.addLine d _).trans (.addLine _ _)) ((h.addLine _).addLine _)
    (by simp : _ = d.code ++ [.ldx (.const number), .sys]) ?_ ?_ ?_, rfl, rfl⟩
  · simp [slot?, operand]
  · simp [jump?, operand]
  · exact fun layout ↦ Flow.closed_call known

/-- The comparison that makes a branch back taken is a piece. -/
theorem piece_compared {d : Draft} (h : d.WellFormed) : Piece d (compared d) := by
  have hzero := Piece.withZero h
  have hload := ValuePiece.value hzero.sound (i := .ldx (.const 1)) rfl rfl rfl
  have hslot := hload.sound.zero_lt _ (zero_withZero d)
  have hcompare := ValuePiece.address hload.sound (i := .cpx (d.zero.getD d.slots.size))
    rfl rfl hslot rfl
  exact hzero.trans (hload.trans hcompare).toPiece

namespace Stmt

/-- Whenever the step succeeds, it adds a piece. -/
def Adds (step : Drafting Unit) : Prop :=
  ∀ d next, d.WellFormed → step.run d = .ok () next → Piece d next

/-- A system call that prints adds a piece. -/
theorem builds_callSystem {number : UInt8} (known : number = 1 ∨ number = 2) :
    Expr.Builds (callSystem number) := by
  intro d next hd h
  cases h
  exact .call hd known

/-- Printing a text adds a piece. -/
theorem builds_printText (value : String) : Expr.Builds (printText value) := by
  intro d next hd h
  rw [run_printText] at h
  have hload := (ValuePiece.place hd value).trans
    (.value (hd.addLine _) (i := .ldy (.text value)) rfl rfl rfl)
  exact hload.trans (builds_callSystem (.inr rfl) _ _ hload.sound h)

/-- Loading the word for a truth value is a piece. -/
theorem valuePiece_flagLoaded {slot : Nat} {d : Draft} (hd : d.WellFormed)
    (hslot : slot < d.slots.size) : ValuePiece d (flagLoaded slot d) := by
  have htexts := (ValuePiece.place hd (flagWord true)).trans
    (.place (hd.addLine _) (flagWord false))
  have htest := (htexts.trans (.value htexts.sound (i := .ldx (.const 1)) rfl rfl rfl)).trans
    (.address (htexts.sound.addLine _) (i := .cpx slot) rfl rfl hslot rfl)
  have hno := htest.trans
    (.value htest.sound (i := .ldy (.text (flagWord false))) rfl rfl rfl)
  exact hno.trans (.skip hno.sound rfl rfl rfl rfl)

/-- Printing a truth value is a piece. -/
theorem valuePiece_printFlag {slot : Nat} {d next : Draft} (hd : d.WellFormed)
    (hslot : slot < d.slots.size) (h : (printFlag slot).run d = .ok () next) :
    ValuePiece d next := by
  rw [run_printFlag] at h
  have hload := valuePiece_flagLoaded hd hslot
  exact hload.trans (builds_callSystem (.inr rfl) _ _ hload.sound h)

/-- Printing a number is a piece. -/
theorem valuePiece_printNumber {slot : Nat} {d next : Draft} (hd : d.WellFormed)
    (hslot : slot < d.slots.size) (h : (printNumber slot).run d = .ok () next) :
    ValuePiece d next := by
  rw [run_printNumber] at h
  have hload : ValuePiece d _ := .address hd (i := .ldyAt slot) rfl rfl hslot rfl
  exact hload.trans (builds_callSystem (.inl rfl) _ _ hload.sound h)

private theorem valuePiece_printVariable {type : VarType} {name : String} {slot : Nat}
    {d next : Draft} (hd : d.WellFormed) (hslot : slot < d.slots.size)
    (h : (printVariable type name slot).run d = .ok () next) : ValuePiece d next := by
  cases type with
  | int => exact valuePiece_printNumber hd hslot h
  | string =>
    have hload : ValuePiece d _ := .address hd (i := .ldyAt slot) rfl rfl hslot rfl
    exact hload.trans (builds_callSystem (.inr rfl) _ _ hload.sound h)
  | boolean => exact valuePiece_printFlag hd hslot h
  | none => cases h

/-- Printing computes. -/
theorem builds_printValue (table : ScopeTable) (e : Expr) :
    Expr.Builds (printValue table e) := by
  intro d next hd h
  cases e with
  | digit value =>
    have hload : ValuePiece d _ := .value hd (i := .ldy (.const value)) rfl rfl rfl
    exact hload.trans (builds_callSystem (.inl rfl) _ _ hload.sound h)
  | flag value => exact builds_printText (flagWord value) d next hd h
  | text value => exact builds_printText value d next hd h
  | var symbol name =>
    obtain ⟨slot, hl, hprint⟩ := printValue_var_eq_ok.mp h
    exact valuePiece_printVariable hd (hd.lookup_lt hl) hprint
  | sum first rest =>
    obtain ⟨slot, mid, hslot, hprint⟩ := run_bind_eq_ok.mp h
    obtain ⟨hmid, hk⟩ := Expr.builds_toSlot table _ d slot mid hd hslot
    exact hmid.trans (valuePiece_printNumber hmid.sound hk hprint)
  | compare _ _ _ | oddCompare _ | invalid _ =>
    obtain ⟨slot, mid, hslot, hprint⟩ := run_bind_eq_ok.mp h
    obtain ⟨hmid, hk⟩ := Expr.builds_toSlot table _ d slot mid hd hslot
    exact hmid.trans (valuePiece_printFlag hmid.sound hk hprint)

/-- Loading the first value of a variable is a piece. -/
theorem valuePiece_firstLoaded {d : Draft} (hd : d.WellFormed) (type : VarType) :
    ValuePiece d (firstLoaded type d) := by
  unfold firstLoaded
  split
  · exact (ValuePiece.place hd "").trans (.value (hd.addLine _) rfl rfl rfl)
  · exact .value hd rfl rfl rfl

/-- The declaration of a variable adds a piece. -/
theorem adds_declareVariable (table : ScopeTable) (symbol : SymbolId) :
    Adds (declareVariable table symbol) := by
  intro d next hd h
  obtain ⟨text, hrun⟩ := run_declareVariable table symbol d
  rw [hrun] at h
  cases h
  have hdecl := Piece.declared hd symbol
  have hnote := hdecl.trans (.note hdecl.sound .verbose text)
  have hload := valuePiece_firstLoaded hnote.sound (table.typeOf symbol)
  have hslot : d.slots.size < (firstLoaded (table.typeOf symbol)
      ((declared symbol d).addLine (.note .verbose text))).slots.size :=
    Nat.lt_of_lt_of_le (by simp [declared, Draft.addSlot, Draft.addLine]) hload.grows.slots
  have hstore := ValuePiece.address hload.sound (i := .sta d.slots.size) rfl rfl hslot rfl
  exact (hnote.trans hload.toPiece).trans hstore.toPiece

/-- An assignment computes. -/
theorem builds_assign (table : ScopeTable) (symbol : SymbolId) (value : Expr) :
    Expr.Builds (draft table (.assign symbol value)) := by
  intro d next hd h
  obtain ⟨slot, mid, hl, hload, rfl⟩ := assign_eq_ok.mp h
  have hmid := Expr.builds_load table value d mid hd hload
  have hslot : slot < mid.slots.size := Nat.lt_of_lt_of_le (hd.lookup_lt hl) hmid.grows.slots
  exact hmid.trans (.address hmid.sound rfl rfl hslot rfl)

/-- A distance leads from one address to a later one. -/
theorem ofNat_add_distance {m n : Nat} (h : m ≤ n) :
    UInt8.ofNat m + UInt8.ofNat (n - m) = UInt8.ofNat n := by
  rw [← UInt8.ofNat_add, Nat.add_sub_cancel' h]

/-- A conditional statement is its condition, a branch, its body, and the end of the branch. -/
theorem ifThen_drafts {table : ScopeTable} {condition : Expr} {body : Stmt} {d next : Draft}
    (h : (draft table (.ifThen condition body)).run d = .ok () next) : ∃ tested ended text,
      (condition.condition table).run d = .ok () tested ∧
      (draft table body).run (branched tested) = .ok () ended ∧
      next = ended.landed text tested.distances.size
        (UInt8.ofNat (ended.codeSize - (branched tested).codeSize)) := by
  obtain ⟨tested, ended, hcond, hdraft, hland⟩ := ifThen_eq_ok.mp h
  obtain ⟨text, hrun⟩ := run_land tested.distances.size (branched tested).codeSize ended
  rw [hrun] at hland
  cases hland
  exact ⟨tested, ended, text, hcond, hdraft, rfl⟩

/-- A loop is its condition, a branch, its body, a branch back, and the end of the first branch. -/
theorem whileDo_drafts {table : ScopeTable} {condition : Expr} {body : Stmt} {d next : Draft}
    (h : (draft table (.whileDo condition body)).run d = .ok () next) : ∃ tested ended goes lands,
      (condition.condition table).run d = .ok () tested ∧
      (draft table body).run (branched tested) = .ok () ended ∧
      next = ((compared ended).back d.codeSize goes).landed lands tested.distances.size
        (UInt8.ofNat (((compared ended).back d.codeSize goes).codeSize -
          (branched tested).codeSize)) := by
  obtain ⟨tested, ended, back, hcond, hdraft, hback, hland⟩ := whileDo_eq_ok.mp h
  obtain ⟨goes, hgoes⟩ := run_branchBack d.codeSize ended
  rw [hgoes] at hback
  cases hback
  obtain ⟨lands, hlands⟩ := run_land tested.distances.size (branched tested).codeSize
    ((compared ended).back d.codeSize goes)
  rw [Draft.back] at hlands
  rw [hlands] at hland
  cases hland
  exact ⟨tested, ended, goes, lands, hcond, hdraft, rfl⟩

private theorem adds_ifThen {table : ScopeTable} {condition : Expr} {body : Stmt}
    (hbody : Adds (draft table body)) : Adds (draft table (.ifThen condition body)) := by
  intro d next hd h
  obtain ⟨tested, ended, text, hcond, hdraft, rfl⟩ := ifThen_drafts h
  have htested := (Expr.builds_condition table condition d tested hd hcond).toPiece
  have hended := hbody _ ended ((htested.sound.addJump).addLine _) hdraft
  exact htested.trans (hended.branchOver (ofNat_add_distance (hended.grows.codeSize_le)) text)

private theorem adds_whileDo {table : ScopeTable} {condition : Expr} {body : Stmt}
    (hbody : Adds (draft table body)) : Adds (draft table (.whileDo condition body)) := by
  intro d next hd h
  obtain ⟨tested, ended, goes, lands, hcond, hdraft, rfl⟩ := whileDo_drafts h
  have htested := (Expr.builds_condition table condition d tested hd hcond).toPiece
  have hended := hbody _ ended ((htested.sound.addJump).addLine _) hdraft
  have hcompared := hended.trans (piece_compared hended.sound)
  refine htested.loop hcompared goes lands (ofNat_add_distance ?_)
  exact Nat.le_trans hcompared.grows.codeSize_le (by simp [Draft.codeSize_eq, code_back])

mutual

/-- Every statement that is drafted adds a piece. -/
theorem adds_draft (table : ScopeTable) (s : Stmt) : Adds (draft table s) := by
  cases s with
  | block body => exact adds_draftAll table body
  | declare symbol => exact adds_declareVariable table symbol
  | assign symbol value =>
    exact fun d next hd h ↦ (builds_assign table symbol value d next hd h).toPiece
  | print value => exact fun d next hd h ↦ (builds_printValue table value d next hd h).toPiece
  | ifThen condition body => exact adds_ifThen (adds_draft table body)
  | whileDo condition body => exact adds_whileDo (adds_draft table body)
  | invalid err =>
    intro d next _ h
    cases h

/-- Statements one after the other add a piece. -/
theorem adds_draftAll (table : ScopeTable) (ss : List Stmt) : Adds (draftAll table ss) := by
  intro d next hd h
  cases ss with
  | nil =>
    cases h
    exact .refl hd
  | cons s ss =>
    obtain ⟨mid, hs, hss⟩ := draftAll_cons_eq_ok.mp h
    have hmid := adds_draft table s d mid hd hs
    exact hmid.trans (adds_draftAll table ss mid next hmid.sound hss)

end

/-- An empty draft has nothing to keep apart. -/
theorem wellFormed_empty : ({} : Draft).WellFormed := by
  constructor <;> simp

/-- The code of a program is closed code that does not halt, followed by a halt. -/
theorem draftProgram_closed {table : ScopeTable} {program : Stmt} {d : Draft}
    (h : (draftProgram table program).run {} = .ok () d) :
    ∃ body, d.code = body ++ [.brk] ∧ (∀ i ∈ body, d.Settles i) ∧
      ∀ layout : Layout, layout.Agrees d → Flow.Closed 0 (layout.resolveAll body) := by
  obtain ⟨last, hdraft, rfl⟩ := draftProgram_eq_ok.mp h
  have hempty := wellFormed_empty
  have hlast := (Piece.note hempty .verbose "began code generation").trans
    (adds_draft table program _ last (hempty.addLine _) hdraft)
  obtain ⟨body, hcode, hsettled, hclosed⟩ := hlast.added
  refine ⟨body, ?_, fun i hi ↦ ⟨(hsettled i hi).slot, (hsettled i hi).jump⟩, hclosed⟩
  rw [Draft.code_addLine_code, Draft.code_addLine_note, hcode]
  rfl

end Stmt

end OnePage
