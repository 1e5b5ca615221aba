import OnePage.Proofs.Flow
import OnePage.Proofs.Layout

/-!
# How drafts grow

Drafting only adds: lines, slots, branches and, once a branch lands, its distance. A piece is what a
complete step adds. Its code is closed under every layout that knows the distances of the branches
that have landed, its slots exist and its branches have landed. Pieces follow each other.
-/

namespace OnePage

open Instruction

/-- The number of the slot that an instruction addresses, if it addresses one. -/
def Instruction.slot? (i : Code) : Option Nat :=
  match i.operand with
  | .address slot => some slot
  | _ => none

/-- The number of the branch whose distance is an instruction's operand, if one is. -/
def Instruction.jump? (i : Code) : Option Nat :=
  match i.operand with
  | .value (.jump index) => some index
  | _ => none

/-- An address of resolved code is that of a slot. -/
theorem Layout.operand_resolve {layout : Layout} {i : Code} {a : UInt8}
    (h : (layout.resolve i).operand = .address a) : ∃ k, i.slot? = some k ∧ a = layout.slot k := by
  cases i <;> cases h <;> exact ⟨_, rfl, rfl⟩

namespace Draft

/-- The draft with one more line. -/
def addLine (d : Draft) (line : Line) : Draft := { d with lines := d.lines.push line }

/-- The draft with one more slot. -/
def addSlot (d : Draft) (owner : Option SymbolId) : Draft :=
  { d with slots := d.slots.push owner }

/-- The draft with a branch whose distance is not known yet. -/
def addJump (d : Draft) : Draft := { d with distances := d.distances.push none }

/-- The draft with the distance of a branch. -/
def landJump (d : Draft) (jump : Nat) (distance : UInt8) : Draft :=
  { d with distances := d.distances.setIfInBounds jump (some distance) }

/-- An instruction is added at the end of the code. -/
@[simp] theorem code_addLine_code (d : Draft) (i : Code) :
    (d.addLine (.code i)).code = d.code ++ [i] := by
  simp [code, addLine, Line.code?]

/-- A remark adds no code. -/
@[simp] theorem code_addLine_note (d : Draft) (profile : Profile) (text : String) :
    (d.addLine (.note profile text)).code = d.code := by
  simp [code, addLine, Line.code?, List.filterMap_cons]

/-- A text to be placed adds no code. -/
@[simp] theorem code_addLine_place (d : Draft) (text : String) :
    (d.addLine (.place text)).code = d.code := by
  simp [code, addLine, Line.code?, List.filterMap_cons]

@[simp] private theorem code_addSlot (d : Draft) (owner : Option SymbolId) :
    (d.addSlot owner).code = d.code := rfl

@[simp] private theorem code_addJump (d : Draft) : d.addJump.code = d.code := rfl

@[simp] private theorem code_landJump (d : Draft) (jump : Nat) (distance : UInt8) :
    (d.landJump jump distance).code = d.code := rfl

/-- An instruction takes as many bytes as it is wide. -/
theorem codeSize_addLine_code (d : Draft) (i : Code) :
    (d.addLine (.code i)).codeSize = d.codeSize + i.width := by
  rw [codeSize_eq, code_addLine_code, size_append, ← codeSize_eq]
  rfl

/-- A remark takes no bytes. -/
theorem codeSize_addLine_note (d : Draft) (profile : Profile) (text : String) :
    (d.addLine (.note profile text)).codeSize = d.codeSize := by
  rw [codeSize_eq, code_addLine_note, ← codeSize_eq]

/-- What was drafted stays: the lines, the slots, the branches, the variables and the zero slot. -/
structure Extends (d next : Draft) : Prop where
  lines : d.lines.toList <+: next.lines.toList
  slots : d.slots.size ≤ next.slots.size
  jumps : d.distances.size ≤ next.distances.size
  landed : ∀ j < d.distances.size, next.distances[j]? = d.distances[j]?
  homes : d.homes <:+ next.homes
  homesLater : ∀ v ∈ next.homes, v ∈ d.homes ∨ d.slots.size ≤ v.2
  zero : ∀ z, d.zero = some z → next.zero = some z
  zeroLater : ∀ z, next.zero = some z → d.zero = some z ∨ d.slots.size ≤ z

namespace Extends

/-- A draft keeps what is in it. -/
theorem refl (d : Draft) : Extends d d :=
  ⟨List.prefix_refl _, Nat.le_refl _, Nat.le_refl _, fun _ _ ↦ rfl, List.suffix_refl _,
    fun _ h ↦ .inl h, fun _ h ↦ h, fun _ h ↦ .inl h⟩

/-- What is kept by two steps is kept by both together. -/
theorem trans {d mid next : Draft} (h : Extends d mid) (k : Extends mid next) :
    Extends d next where
  lines := h.lines.trans k.lines
  slots := Nat.le_trans h.slots k.slots
  jumps := Nat.le_trans h.jumps k.jumps
  landed j hj := (k.landed j (Nat.lt_of_lt_of_le hj h.jumps)).trans (h.landed j hj)
  homes := h.homes.trans k.homes
  homesLater v hv := by
    rcases k.homesLater v hv with hm | hle
    · exact h.homesLater v hm
    · exact .inr (Nat.le_trans h.slots hle)
  zero z hz := k.zero z (h.zero z hz)
  zeroLater z hz := by
    rcases k.zeroLater z hz with hm | hle
    · exact h.zeroLater z hm
    · exact .inr (Nat.le_trans h.slots hle)

/-- Another line keeps what was drafted. -/
theorem addLine (d : Draft) (line : Line) : Extends d (d.addLine line) :=
  ⟨by simp [Draft.addLine], Nat.le_refl _, Nat.le_refl _, fun _ _ ↦ rfl, List.suffix_refl _,
    fun _ h ↦ .inl h, fun _ h ↦ h, fun _ h ↦ .inl h⟩

/-- Another slot keeps what was drafted. -/
theorem addSlot (d : Draft) (owner : Option SymbolId) : Extends d (d.addSlot owner) :=
  ⟨List.prefix_refl _, by simp [Draft.addSlot], Nat.le_refl _, fun _ _ ↦ rfl, List.suffix_refl _,
    fun _ h ↦ .inl h, fun _ h ↦ h, fun _ h ↦ .inl h⟩

/-- Another branch keeps what was drafted. -/
theorem addJump (d : Draft) : Extends d d.addJump :=
  ⟨List.prefix_refl _, Nat.le_refl _, by simp [Draft.addJump], fun j hj ↦ by
    rw [Draft.addJump, Array.getElem?_push_lt hj, ← Array.getElem?_eq_getElem hj],
    List.suffix_refl _, fun _ h ↦ .inl h, fun _ h ↦ h, fun _ h ↦ .inl h⟩

/-- A branch that was added may land. -/
theorem landJump {d next : Draft} (h : Extends d next) {jump : Nat} (distance : UInt8)
    (hj : d.distances.size ≤ jump) : Extends d (next.landJump jump distance) where
  lines := h.lines
  slots := h.slots
  jumps := by simpa [Draft.landJump] using h.jumps
  landed j hlt := by
    rw [Draft.landJump, Array.getElem?_setIfInBounds_ne (by omega), h.landed j hlt]
  homes := h.homes
  homesLater := h.homesLater
  zero := h.zero
  zeroLater := h.zeroLater

/-- What is added makes the code longer. -/
theorem codeSize_le {d next : Draft} (h : Extends d next) : d.codeSize ≤ next.codeSize := by
  obtain ⟨new, hnew⟩ := h.lines
  rw [codeSize_eq, codeSize_eq, code, code, ← hnew, List.filterMap_append, size_append]
  exact Nat.le_add_right _ _

end Extends

/-- The slots of the variables and the zero slot exist and are all different. -/
structure WellFormed (d : Draft) : Prop where
  home_lt : ∀ v ∈ d.homes, v.2 < d.slots.size
  homes_ne : d.homes.Pairwise fun v w ↦ v.2 ≠ w.2
  zero_lt : ∀ z, d.zero = some z → z < d.slots.size
  zero_ne : ∀ z, d.zero = some z → ∀ v ∈ d.homes, v.2 ≠ z

namespace WellFormed

/-- Another line keeps a draft well formed. -/
theorem addLine {d : Draft} (h : d.WellFormed) (line : Line) : (d.addLine line).WellFormed :=
  ⟨h.home_lt, h.homes_ne, h.zero_lt, h.zero_ne⟩

/-- Another slot keeps a draft well formed, whether or not it is a variable's. -/
theorem addSlot {d : Draft} (h : d.WellFormed) (owner : Option SymbolId) :
    (d.addSlot owner).WellFormed where
  home_lt v hv := by
    have := h.home_lt v hv
    simp only [Draft.addSlot, Array.size_push]
    omega
  homes_ne := h.homes_ne
  zero_lt z hz := by
    have := h.zero_lt z hz
    simp only [Draft.addSlot, Array.size_push]
    omega
  zero_ne := h.zero_ne

/-- Another branch keeps a draft well formed. -/
theorem addJump {d : Draft} (h : d.WellFormed) : d.addJump.WellFormed :=
  ⟨h.home_lt, h.homes_ne, h.zero_lt, h.zero_ne⟩

/-- A branch that lands keeps a draft well formed. -/
theorem landJump {d : Draft} (h : d.WellFormed) (jump : Nat) (distance : UInt8) :
    (d.landJump jump distance).WellFormed :=
  ⟨h.home_lt, h.homes_ne, h.zero_lt, h.zero_ne⟩

end WellFormed

/-- The slots of an instruction exist, and its branch has landed. -/
structure Settles (d : Draft) (i : Code) : Prop where
  slot : ∀ k ∈ i.slot?, k < d.slots.size
  jump : ∀ j ∈ i.jump?, ∃ v, d.distances[j]? = some (some v)

/-- What is settled stays so. -/
theorem Settles.extend {d next : Draft} {i : Code} (h : d.Settles i) (k : Extends d next) :
    next.Settles i where
  slot n hn := Nat.lt_of_lt_of_le (h.slot n hn) k.slots
  jump j hj := by
    obtain ⟨v, hv⟩ := h.jump j hj
    obtain ⟨hlt, _⟩ := Array.getElem?_eq_some_iff.mp hv
    exact ⟨v, (k.landed j hlt).trans hv⟩

end Draft

/-- The layout knows the distances of the branches that have landed. -/
def Layout.Agrees (layout : Layout) (d : Draft) : Prop :=
  ∀ (j : Nat) (v : UInt8), d.distances[j]? = some (some v) → layout.distance j = v

/-- A layout that agrees with a draft agrees with what it grew from. -/
theorem Layout.Agrees.of_extends {layout : Layout} {d next : Draft} (h : layout.Agrees next)
    (k : d.Extends next) : layout.Agrees d := by
  intro j v hj
  obtain ⟨hlt, _⟩ := Array.getElem?_eq_some_iff.mp hj
  exact h j v ((k.landed j hlt).trans hj)

/-- A complete step from one draft to another: it adds closed code with settled operands. -/
structure Piece (d next : Draft) : Prop where
  grows : d.Extends next
  sound : next.WellFormed
  added : ∃ new, next.code = d.code ++ new ∧ (∀ i ∈ new, next.Settles i) ∧
    ∀ layout : Layout, layout.Agrees next →
      Flow.Closed (size d.code) (layout.resolveAll new)

namespace Piece

/-- A step without code. -/
theorem of_code_eq {d next : Draft} (grows : d.Extends next) (sound : next.WellFormed)
    (same : next.code = d.code) : Piece d next :=
  ⟨grows, sound, [], by simp [same], by simp, fun _ _ ↦ Flow.closed_nil _⟩

/-- Nothing added is a piece. -/
theorem refl {d : Draft} (h : d.WellFormed) : Piece d d := of_code_eq (.refl d) h rfl

/-- Pieces follow each other. -/
theorem trans {d mid next : Draft} (h : Piece d mid) (k : Piece mid next) : Piece d next := by
  obtain ⟨first, hfirst, hsettled, hclosed⟩ := h.added
  obtain ⟨second, hsecond, ksettled, kclosed⟩ := k.added
  refine ⟨h.grows.trans k.grows, k.sound, first ++ second, ?_, ?_, ?_⟩
  · rw [hsecond, hfirst, List.append_assoc]
  · intro i hi
    rcases List.mem_append.mp hi with hi | hi
    · exact (hsettled i hi).extend k.grows
    · exact ksettled i hi
  · intro layout hagrees
    have hx := hclosed layout (hagrees.of_extends k.grows)
    have hy := kclosed layout hagrees
    rw [Layout.resolveAll, List.map_append]
    apply hx.append
    rw [hfirst, size_append] at hy
    rwa [layout.size_resolveAll]

/-- A remark is a piece. -/
theorem note {d : Draft} (h : d.WellFormed) (profile : Profile) (text : String) :
    Piece d (d.addLine (.note profile text)) :=
  of_code_eq (.addLine d _) (h.addLine _) (by simp)

/-- A text to be placed is a piece. -/
theorem place {d : Draft} (h : d.WellFormed) (text : String) :
    Piece d (d.addLine (.place text)) :=
  of_code_eq (.addLine d _) (h.addLine _) (by simp)

/-- Another slot is a piece. -/
theorem slot {d : Draft} (h : d.WellFormed) (owner : Option SymbolId) :
    Piece d (d.addSlot owner) :=
  of_code_eq (.addSlot d owner) (h.addSlot owner) (by simp)

/-- Code whose instructions need no branch to land is a piece if its slots exist and it is closed
under every layout. -/
theorem code {d next : Draft} {new : List Code} (grows : d.Extends next)
    (sound : next.WellFormed) (added : next.code = d.code ++ new)
    (slots : ∀ i ∈ new, ∀ k ∈ i.slot?, k < next.slots.size) (jumps : ∀ i ∈ new, i.jump? = none)
    (closed : ∀ layout : Layout, Flow.Closed (size d.code) (layout.resolveAll new)) :
    Piece d next :=
  ⟨grows, sound, new, added, fun i hi ↦ ⟨slots i hi, by simp [jumps i hi]⟩,
    fun layout _ ↦ closed layout⟩

/-- One plain instruction. -/
theorem emit {d : Draft} (h : d.WellFormed) {i : Code} (plain : Flow.isPlain i)
    (slots : ∀ k ∈ i.slot?, k < d.slots.size) (jumps : i.jump? = none) :
    Piece d (d.addLine (.code i)) := by
  refine code (.addLine d _) (h.addLine _) (d.code_addLine_code i) ?_ ?_ ?_
  · intro j hj
    rw [List.mem_singleton.mp hj]
    exact slots
  · intro j hj
    rw [List.mem_singleton.mp hj]
    exact jumps
  · intro layout
    apply Flow.closed_plain
    cases i <;> simp_all [Flow.isPlain, Layout.resolve, mapOperands]

end Piece

end OnePage
