import OnePage.Proofs.Meaning
import OnePage.Proofs.Safety

/-!
# Running drafted code

A linked program has its draft, laid out, on a page. A machine on that page stands where some part
of the draft ends and executes what was drafted next. Code for expressions writes only the slots
that were taken for it, and leaves the value of the expression in the accumulator or in a slot.
-/

namespace OnePage

open Instruction

/-! ### The way to the whole draft -/

/-- The draft is completed by another: what it has stays, and so does where its branches landed. -/
structure Draft.Leads (d whole : Draft) : Prop where
  lines : d.lines.toList <+: whole.lines.toList
  slots : d.slots.size ≤ whole.slots.size
  landed : ∀ (j : Nat) (v : UInt8), d.distances[j]? = some (some v) →
    whole.distances[j]? = some (some v)
  homes : d.homes <:+ whole.homes
  homesLater : ∀ v ∈ whole.homes, v ∈ d.homes ∨ d.slots.size ≤ v.2
  zero : ∀ z, d.zero = some z → whole.zero = some z
  zeroLater : ∀ z, whole.zero = some z → d.zero = some z ∨ d.slots.size ≤ z

namespace Draft

/-- A draft completes itself. -/
theorem Leads.refl (d : Draft) : d.Leads d :=
  ⟨List.prefix_refl _, Nat.le_refl _, fun _ _ h ↦ h, List.suffix_refl _, fun _ h ↦ .inl h,
    fun _ h ↦ h, fun _ h ↦ .inl h⟩

/-- What completes a completed draft completes the first. -/
theorem Leads.trans {d mid whole : Draft} (h : d.Leads mid) (k : mid.Leads whole) :
    d.Leads whole where
  lines := h.lines.trans k.lines
  slots := Nat.le_trans h.slots k.slots
  landed j v hj := k.landed j v (h.landed j v hj)
  homes := h.homes.trans k.homes
  homesLater v hv := by
    rcases k.homesLater v hv with hm | hle
    · exact h.homesLater v hm
    · exact .inr (Nat.le_trans h.slots hle)
  zero z hz := k.zero z (h.zero z hz)
  zeroLater z hz := by
    rcases k.zeroLater z hz with hm | hle
    · exact h.zeroLater z hm
    · exact .inr (Nat.le_trans h.slots hle)

/-- What grows into a draft is completed by what completes that draft. -/
theorem Extends.leads {d next whole : Draft} (h : d.Extends next) (k : next.Leads whole) :
    d.Leads whole := by
  refine Leads.trans ⟨h.lines, h.slots, fun j v hj ↦ ?_, h.homes, h.homesLater, h.zero,
    h.zeroLater⟩ k
  obtain ⟨hlt, _⟩ := Array.getElem?_eq_some_iff.mp hj
  exact (h.landed j hlt).trans hj

/-- What completes a draft with one line more completes the draft without it. -/
theorem Leads.of_addLine {d whole : Draft} {line : Line} (h : (d.addLine line).Leads whole) :
    d.Leads whole :=
  (Extends.addLine d line).leads h

/-- A draft with an open branch is completed by what completes it once the branch has landed. -/
theorem Leads.of_landed {d whole : Draft} {text : String} {jump : Nat} {distance : UInt8}
    (h : (d.landed text jump distance).Leads whole) (hopen : d.distances[jump]? = some none) :
    d.Leads whole where
  lines := (Extends.addLine d (.note .verbose text)).lines.trans h.lines
  slots := h.slots
  landed j v hj := by
    have hne : jump ≠ j := by
      rintro rfl
      rw [hopen] at hj
      cases hj
    refine h.landed j v ?_
    rw [Draft.landed, landJump, Array.getElem?_setIfInBounds_ne hne]
    exact hj
  homes := h.homes
  homesLater := h.homesLater
  zero := h.zero
  zeroLater := h.zeroLater

/-- A draft's code is what the code of a completed one starts with. -/
theorem Leads.code_prefix {d whole : Draft} (h : d.Leads whole) : d.code <+: whole.code :=
  h.lines.filterMap _

end Draft

/-! ### Machines on a linked program -/

/-- The code and the texts of an executable are in the memory of a machine. -/
def Machine.Carries (m : Machine) (exe : Executable) : Prop :=
  ∀ address : UInt8, address.toNat < exe.codeLen ∨ exe.heapStart ≤ address.toNat →
    m.memory.read address = exe.bytes.read address

/-- A program that was drafted, laid out and linked. -/
structure Built where
  whole : Draft
  layout : Layout
  texts : List (String × UInt8)
  exe : Executable
  body : List Code
  linked : Linked whole layout texts exe
  sound : whole.WellFormed
  code_eq : whole.code = body ++ [.brk]
  secure : exe.bytes.Secure exe.codeLen (exe.codeLen + exe.staticLen) (layout.resolveAll body)

namespace Built

variable (b : Built)

/-- The byte in a slot. -/
def slot (m : Machine) (k : Nat) : UInt8 := m.memory.read (b.layout.slot k)

/-- The machine has the program in its memory and is at the end of what is drafted. -/
structure At (d : Draft) (m : Machine) : Prop where
  carries : m.Carries b.exe
  pc : m.pc = UInt8.ofNat (size d.code)

/-- The machine after an instruction that was drafted next. -/
def after (d : Draft) (i : Code) (m : Machine) : Machine :=
  (Machine.execute { m with
    steps := m.steps + 1
    pc := UInt8.ofNat (size (d.addLine (.code i)).code) } (b.layout.resolve i)).2

variable {b} {d next : Draft} {m : Machine} {i : Code}

/-- A machine executes the instruction that was drafted next. -/
theorem At.step (h : b.At d m) (hl : (d.addLine (.code i)).Leads b.whole) :
    m.step = Machine.execute { m with
      steps := m.steps + 1
      pc := UInt8.ofNat (size (d.addLine (.code i)).code) } (b.layout.resolve i) := by
  obtain ⟨rest, hrest⟩ := hl.code_prefix
  have hcode : b.layout.resolveAll b.body ++ [.brk] =
      b.layout.resolveAll d.code ++ b.layout.resolve i :: b.layout.resolveAll rest := by
    have hall := congrArg b.layout.resolveAll (hrest.trans b.code_eq)
    simpa [Layout.resolveAll, Layout.resolve, mapOperands] using hall.symm
  have hpc : m.pc = UInt8.ofNat (size (b.layout.resolveAll d.code)) := by
    rw [h.pc, b.layout.size_resolveAll]
  rw [Machine.step_eq b.secure (fun a ha ↦ h.carries a (.inl ha)) hcode hpc,
    b.layout.size_resolveAll, Draft.code_addLine_code, size_append, size_cons, size_nil,
    Layout.resolve, width_mapOperands]
  rfl

/-- A step that changes no memory and goes on to where a draft ends. -/
theorem At.runs (h : b.At d m) {last : Machine} (hstep : m.step = (.running, last))
    (hmemory : last.memory = m.memory) (hpc : last.pc = UInt8.ofNat (size next.code)) :
    Machine.Runs 1 m last ∧ b.At next last := by
  refine ⟨.single hstep, fun address hout ↦ ?_, hpc⟩
  rw [hmemory]
  exact h.carries address hout

variable (b) in
/-- The machine goes from where one draft ends to where another does and changes nothing but slots
that were taken in between. -/
structure Crosses (d next : Draft) (m last : Machine) : Prop where
  runs : ∃ n, Machine.Runs n m last
  arrives : b.At next last
  slots : d.slots.size ≤ next.slots.size
  kept : ∀ k < b.whole.slots.size, k < d.slots.size ∨ next.slots.size ≤ k →
    b.slot last k = b.slot m k
  outside : ∀ address : UInt8,
    address.toNat < b.exe.codeLen ∨ b.exe.codeLen + b.exe.staticLen ≤ address.toNat →
      last.memory.read address = m.memory.read address

private theorem Crosses.trans {mid : Draft} {middle last : Machine} (h : b.Crosses d mid m middle)
    (k : b.Crosses mid next middle last) : b.Crosses d next m last where
  runs := by
    obtain ⟨n, hn⟩ := h.runs
    obtain ⟨j, hj⟩ := k.runs
    exact ⟨n + j, hn.trans hj⟩
  arrives := k.arrives
  slots := Nat.le_trans h.slots k.slots
  kept j hj hout := by
    have hd := h.slots
    have hnext := k.slots
    rw [k.kept j hj (by omega), h.kept j hj (by omega)]
  outside address hout := (k.outside address hout).trans (h.outside address hout)

variable (b) in
/-- The machine gets there and prints nothing. -/
structure Moves (d next : Draft) (m last : Machine) : Prop extends b.Crosses d next m last where
  output : last.output = m.output

/-- Two moves one after the other are one move. -/
theorem Moves.trans {mid : Draft} {middle last : Machine} (h : b.Moves d mid m middle)
    (k : b.Moves mid next middle last) : b.Moves d next m last :=
  ⟨h.toCrosses.trans k.toCrosses, k.output.trans h.output⟩

/-- Nothing is executed where no code is drafted. -/
theorem At.skip (h : b.At d m) (hcode : next.code = d.code)
    (hslots : d.slots.size ≤ next.slots.size) : b.Moves d next m m :=
  ⟨⟨⟨0, .refl m⟩, ⟨h.carries, by rw [hcode, h.pc]⟩, hslots, fun _ _ _ ↦ rfl, fun _ _ ↦ rfl⟩, rfl⟩

/-- Whether an instruction only changes registers. -/
def isLocal : Code → Bool
  | .lda _ | .ldaAt _ | .adc _ | .ldx _ | .ldxAt _ | .ldy _ | .ldyAt _ | .cpx _ => true
  | _ => false

/-- An instruction that only changes registers moves past itself. -/
theorem At.emit (h : b.At d m) (hl : (d.addLine (.code i)).Leads b.whole)
    (hi : isLocal i = true) : b.Moves d (d.addLine (.code i)) m (b.after d i m) := by
  have hstep : m.step = (.running, b.after d i m) := by
    rw [h.step hl]
    cases i <;> first | rfl | cases hi
  have hpc : (b.after d i m).pc = UInt8.ofNat (size (d.addLine (.code i)).code) := by
    cases i <;> first | rfl | cases hi
  have hmemory : (b.after d i m).memory = m.memory := by
    cases i <;> first | rfl | cases hi
  obtain ⟨hruns, hat⟩ := h.runs hstep hmemory hpc
  refine ⟨⟨⟨1, hruns⟩, hat, Nat.le_refl _, fun k _ _ ↦ ?_, fun _ _ ↦ ?_⟩, ?_⟩
  · rw [slot, hmemory, slot]
  · rw [hmemory]
  · cases i <;> first | rfl | cases hi

/-- The slots of a linked program have addresses of their own. -/
theorem slot_ne {j k : Nat} (hj : j < b.whole.slots.size) (hk : k < b.whole.slots.size)
    (hne : j ≠ k) : b.layout.slot j ≠ b.layout.slot k := by
  have hroom := b.linked.room
  have hend := b.linked.heap_end
  have hbase := b.linked.base
  have hstatic := b.linked.staticLen
  exact fun he ↦ hne (b.layout.slot_inj (by omega) (by omega) he)

/-- Storing changes one slot. -/
theorem slot_after_sta {k : Nat} (hk : k < b.whole.slots.size) (j : Nat)
    (hj : j < b.whole.slots.size) :
    b.slot (b.after d (.sta k) m) j = if j = k then m.a else b.slot m j := by
  have hafter : (b.after d (.sta k) m).memory = m.memory.write (b.layout.slot k) m.a := rfl
  rw [slot, hafter]
  split
  · next he => rw [he, Page.read_write_self]
  · next hne => rw [Page.read_write_of_ne _ _ (slot_ne hk hj (Ne.symm hne)), slot]

/-- The slots lie between the code and the texts. -/
theorem slot_between {k : Nat} (hk : k < b.whole.slots.size) :
    b.exe.codeLen ≤ (b.layout.slot k).toNat ∧
      (b.layout.slot k).toNat < b.exe.codeLen + b.exe.staticLen := by
  have hroom := b.linked.room
  have hend := b.linked.heap_end
  have hstatic := b.linked.staticLen
  rw [Layout.slot, b.linked.base, UInt8.toNat_ofNat', Nat.mod_eq_of_lt (by omega)]
  omega

/-- Storing changes nothing but slots. -/
theorem read_after_sta {k : Nat} (hk : k < b.whole.slots.size) {address : UInt8}
    (hout : address.toNat < b.exe.codeLen ∨ b.exe.codeLen + b.exe.staticLen ≤ address.toNat) :
    (b.after d (.sta k) m).memory.read address = m.memory.read address := by
  have hbetween := slot_between hk
  refine Page.read_write_of_ne m.memory m.a ?_
  rintro rfl
  omega

/-- A store goes on to what was drafted next. -/
theorem At.store (h : b.At d m) {k : Nat} (hl : (d.addLine (.code (.sta k))).Leads b.whole)
    (hk : k < b.whole.slots.size) : Machine.Runs 1 m (b.after d (.sta k) m) ∧
      b.At (d.addLine (.code (.sta k))) (b.after d (.sta k) m) := by
  have hroom := b.linked.room
  refine ⟨.single (by rw [h.step hl]; rfl), fun address hout ↦ ?_, rfl⟩
  rw [read_after_sta hk (hout.imp_right (Nat.le_trans hroom))]
  exact h.carries address hout

/-- Storing into a slot that was taken on the way keeps the others. -/
theorem Moves.store {last : Machine} (h : b.Moves d next m last) {k : Nat}
    (hl : (next.addLine (.code (.sta k))).Leads b.whole) (hlow : d.slots.size ≤ k)
    (hhigh : k < next.slots.size) :
    b.Moves d (next.addLine (.code (.sta k))) m (b.after next (.sta k) last) := by
  obtain ⟨n, hn⟩ := h.runs
  have hk : k < b.whole.slots.size := Nat.lt_of_lt_of_le hhigh hl.slots
  obtain ⟨hruns, hat⟩ := h.arrives.store hl hk
  refine ⟨⟨⟨n + 1, hn.trans hruns⟩, hat, h.slots, fun j hj hout ↦ ?_, fun address hout ↦ ?_⟩,
    h.output⟩
  · have hne : j ≠ k := by
      change j < d.slots.size ∨ next.slots.size ≤ j at hout
      omega
    rw [slot_after_sta hk j hj, if_neg hne, h.kept j hj hout]
  · rw [read_after_sta hk hout, h.outside address hout]

/-- A branch only changes where the machine goes. -/
theorem after_bne (b : Built) (d : Draft) (v : Value) (m : Machine) :
    b.after d (.bne v) m = { m with
      steps := m.steps + 1
      pc := if m.zero then UInt8.ofNat (size (d.addLine (.code (.bne v))).code)
        else UInt8.ofNat (size (d.addLine (.code (.bne v))).code) + b.layout.value v } := by
  cases hz : m.zero <;> simp [after, Layout.resolve, mapOperands, Machine.execute, hz]

/-- A branch goes to where a draft ends if its target is there. -/
theorem At.branch (h : b.At d m) {v : Value} (hl : (d.addLine (.code (.bne v))).Leads b.whole)
    (hpc : (b.after d (.bne v) m).pc = UInt8.ofNat (size next.code)) :
    Machine.Runs 1 m (b.after d (.bne v) m) ∧ b.At next (b.after d (.bne v) m) :=
  h.runs (by rw [h.step hl]; rfl) (by rw [after_bne]) hpc

/-- A branch that goes to where a draft ends moves there. -/
theorem At.moves_bne (h : b.At d m) {v : Value} (hl : (d.addLine (.code (.bne v))).Leads b.whole)
    (hslots : d.slots.size ≤ next.slots.size)
    (hpc : (b.after d (.bne v) m).pc = UInt8.ofNat (size next.code)) :
    b.Moves d next m (b.after d (.bne v) m) := by
  obtain ⟨hruns, hat⟩ := h.branch hl hpc
  refine ⟨⟨⟨1, hruns⟩, hat, hslots, fun k _ _ ↦ ?_, fun address _ ↦ ?_⟩, ?_⟩
  · rw [slot, after_bne]
    rfl
  · rw [after_bne]
  · rw [after_bne]

/-- A branch is not taken after equality. -/
theorem pc_after_bne_true (d : Draft) (v : Value) (hz : m.zero = true) :
    (b.after d (.bne v) m).pc = UInt8.ofNat (size (d.addLine (.code (.bne v))).code) := by
  simp [after_bne, hz]

/-- A branch is taken after a difference. -/
theorem pc_after_bne_false (d : Draft) (v : Value) (hz : m.zero = false) :
    (b.after d (.bne v) m).pc =
      UInt8.ofNat (size (d.addLine (.code (.bne v))).code) + b.layout.value v := by
  simp [after_bne, hz]

/-- An instruction behind a branch over it is executed if the last comparison found equality. -/
theorem At.choose (h : b.At d m) (hi : isLocal i = true) (wide : i.width = 2)
    (hl : ((d.addLine (.code (.bne (.const 2)))).addLine (.code i)).Leads b.whole) :
    ∃ last, b.Moves d ((d.addLine (.code (.bne (.const 2)))).addLine (.code i)) m last ∧
      last.a = (if m.zero then (b.after d i m).a else m.a) ∧
      last.y = (if m.zero then (b.after d i m).y else m.y) := by
  have hbranch := hl.of_addLine
  cases hz : m.zero with
  | true =>
    have hstay : b.Moves d (d.addLine (.code (.bne (.const 2)))) m _ :=
      h.moves_bne hbranch (Nat.le_refl _) (pc_after_bne_true d _ hz)
    refine ⟨_, hstay.trans (hstay.arrives.emit hl hi), ?_, ?_⟩
    · rw [after_bne]
      cases i <;> first | rfl | cases hi
    · rw [after_bne]
      cases i <;> first | rfl | cases hi
  | false =>
    -- A distance of two leads past an instruction of two bytes.
    have hpc : (b.after d (.bne (.const 2)) m).pc =
        UInt8.ofNat (size ((d.addLine (.code (.bne (.const 2)))).addLine (.code i)).code) := by
      rw [pc_after_bne_false d _ hz, Draft.code_addLine_code _ i, size_append, size_cons, size_nil,
        wide, UInt8.ofNat_add]
      rfl
    refine ⟨_, h.moves_bne hbranch (Nat.le_refl _) hpc, ?_, ?_⟩
    · rw [after_bne]
      rfl
    · rw [after_bne]
      rfl

/-! ### Values -/

variable (b) in
/-- The byte stands for the value: a number for itself, one or zero for a truth value, an address
for the text there. -/
def Represents (v : Datum) (byte : UInt8) : Prop :=
  match v with
  | .int n => byte = n
  | .flag x => byte = Expr.bit x
  | .text s => byte = b.layout.address s ∧ (b.texts.lookup s).isSome ∧
    ∀ c ∈ s.toList, isTextChar c

/-- Bytes that stand for values of one type are equal if the values are. -/
theorem Represents.eq_iff {v w : Datum} {x y : UInt8} (hv : b.Represents v x)
    (hw : b.Represents w y) (htype : v.type = w.type) : x = y ↔ v = w := by
  cases v with
  | int n =>
    cases w with
    | int k => rw [show x = n from hv, show y = k from hw, Datum.int.injEq]
    | flag _ | text _ => cases htype
  | flag p =>
    cases w with
    | flag q =>
      rw [show x = Expr.bit p from hv, show y = Expr.bit q from hw]
      cases p <;> cases q <;> decide
    | int _ | text _ => cases htype
  | text s =>
    cases w with
    | text t =>
      rw [hv.1, hw.1, Datum.text.injEq]
      constructor
      · exact fun he ↦ b.linked.address_inj hv.2.1 hw.2.1 he
      · rintro rfl
        rfl
    | int _ | flag _ => cases htype

/-- A text that a line on the way asks for is on the page. -/
theorem placed {text : String} (hl : (d.addLine (.place text)).Leads b.whole) :
    (b.texts.lookup text).isSome := by
  refine b.linked.placed (.place text) (hl.lines.subset ?_) text (by simp [Line.texts])
  simp [Draft.addLine]

variable (b) in
/-- The bytes in the slots of the variables are good ones for them. -/
def Stores (good : SymbolId → UInt8 → Prop) (homes : List (SymbolId × Nat)) (m : Machine) : Prop :=
  ∀ symbol slot, homes.lookup symbol = some slot → good symbol (b.slot m slot)

variable (b) in
/-- The byte stands for the value of a variable, if it has one. -/
def Valued (values : SymbolId → Datum → Prop) (symbol : SymbolId) (byte : UInt8) : Prop :=
  ∀ v, values symbol v → b.Represents v byte

/-- Code for expressions leaves the variables as they are. -/
theorem Stores.kept {good : SymbolId → UInt8 → Prop} {last : Machine}
    (h : b.Stores good d.homes m) (hd : d.WellFormed) (hl : d.Leads b.whole)
    (k : b.Crosses d next m last) : b.Stores good d.homes last := by
  intro symbol slot hlookup
  have hlt := hd.lookup_lt hlookup
  rw [k.kept slot (Nat.lt_of_lt_of_le hlt hl.slots) (.inl hlt)]
  exact h symbol slot hlookup

end Built

/-! ### Programs that are generated -/

/-- The draft before a program. -/
def Draft.opened : Draft := ({} : Draft).addLine (.note .verbose "began code generation")

/-- The draft after a program, which ends by halting. -/
def Draft.closed (d : Draft) : Draft :=
  (d.addLine (.note .everything "end of program, writing BRK")).addLine (.code .brk)

/-- The draft with which a program begins is well formed. -/
theorem Draft.wellFormed_opened : Draft.opened.WellFormed := Stmt.wellFormed_empty.addLine _

/-- Closing a draft keeps what is in it. -/
theorem Draft.extends_closed (d : Draft) : d.Extends d.closed :=
  (Draft.Extends.addLine d _).trans (.addLine _ _)

/-- An executable that is generated was built from the first tree. -/
theorem generate_built {a : Analysis} {exe : Executable} (h : (generate a).result = .ok exe) :
    ∃ (root : Tree Resolved) (rest : Forest Resolved) (b : Built) (d : Draft),
      a.tree = root :: rest ∧ b.exe = exe ∧ b.whole = d.closed ∧ b.body = d.code ∧
      (Stmt.draft a.table (Stmt.ofTree root)).run Draft.opened = .ok () d := by
  obtain ⟨root, rest, whole, layout, texts, htree, hdraft, linked⟩ := generate_ok h
  obtain ⟨body, hcode, hsettled, hclosed⟩ := Stmt.draftProgram_closed hdraft
  obtain ⟨d, hprogram, rfl⟩ := Stmt.draftProgram_eq_ok.mp hdraft
  have hsound := (Stmt.adds_draft a.table _ _ d Draft.wellFormed_opened hprogram).sound
  have hbody : body = d.code := by
    rw [Draft.code_addLine_code, Draft.code_addLine_note] at hcode
    exact (List.append_inj' hcode rfl).1.symm
  exact ⟨root, rest, { whole := d.closed, layout, texts, exe, body, linked
                       sound := (hsound.addLine _).addLine _
                       code_eq := hcode
                       secure := linked.secure hcode hsettled (hclosed layout linked.distances) },
    d, htree, rfl, rfl, hbody, hprogram⟩

end OnePage
