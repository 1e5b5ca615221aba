import OnePage.Analysis.Resolved
import OnePage.Proofs.Collections
import OnePage.Proofs.WellFormed

/-!
# A checker for phrases

A program can be checked from left to right with nothing but a stack of blocks, each a list of the
variables declared in it. The checker stops at the first fault: parts are checked before the whole,
and the target of an assignment before its value. It accepts exactly the well-formed programs.
-/

namespace OnePage

/-- What is known of a declared variable. -/
structure Declared where
  type : VarType
  /-- The line of its declaration. -/
  line : Nat

namespace Checker

/-- The variables declared so far in a block, latest first. -/
abbrev Frame := List (String × Declared)

/-- What a name stands for in the first of some blocks that declares it. -/
def resolve (frames : List Frame) (name : Mark) : Except AnalysisError Declared :=
  match frames.findSome? (·.lookup name.lexeme) with
  | some declared => .ok declared
  | none => .error (.unresolvedIdentifier name.lexeme name.position)

/-- Compare the type of what stands at a place with the one that is expected. -/
def agree (expected found : VarType) (place : Position) : Except AnalysisError Unit :=
  if found = expected then .ok () else .error (.typeMismatch expected found place)

/-- Declare a variable in a block. -/
def declare (frame : Frame) (type name : Mark) : Except AnalysisError Frame :=
  match frame.lookup name.lexeme with
  | some first => .error (.duplicateDeclaration name.lexeme name.position first.line)
  | none =>
    .ok ((name.lexeme, { type := .ofKeyword type.lexeme, line := name.position.line }) :: frame)

end Checker

open Checker

/-- The place by which a truth value or a comparison is cited. -/
def BoolPhrase.place : BoolPhrase → Position
  | .value m | .compare _ _ m _ _ => m.position

/-- The place by which an expression is cited: that of its operator if it has one, that of its
opening quote if it is a text. -/
def ExprPhrase.place : ExprPhrase → Position
  | .digit m | .sum _ m _ | .text m _ _ | .name m => m.position
  | .bool b => b.place

mutual

/-- The type of an expression, or its first fault. -/
def ExprPhrase.infer (frames : List Frame) : ExprPhrase → Except AnalysisError VarType
  | .digit _ => .ok .int
  | .sum _ _ rest => do
    let found ← rest.infer frames
    agree .int found rest.place
    return .int
  | .text _ _ _ => .ok .string
  | .bool b => do
    b.check frames
    return .boolean
  | .name m => do
    let declared ← resolve frames m
    return declared.type

/-- The first fault of a truth value or a comparison. -/
def BoolPhrase.check (frames : List Frame) : BoolPhrase → Except AnalysisError Unit
  | .value _ => .ok ()
  | .compare _ left _ right _ => do
    let expected ← left.infer frames
    let found ← right.infer frames
    agree expected found right.place

end

mutual

/-- What a statement leaves declared in its block, or its first fault. -/
def StmtPhrase.check (outer : List Frame) (frame : Frame) :
    StmtPhrase → Except AnalysisError Frame
  | .print _ _ value _ => do
    let _ ← value.infer (frame :: outer)
    return frame
  | .assign name _ value => do
    let target ← resolve (frame :: outer) name
    let found ← value.infer (frame :: outer)
    agree target.type found value.place
    return frame
  | .declare type name => Checker.declare frame type name
  | .whileDo _ condition _ body _ | .ifThen _ condition _ body _ => do
    condition.check (frame :: outer)
    let _ ← StmtPhrase.checkAll (frame :: outer) [] body
    return frame
  | .block _ body _ => do
    let _ ← StmtPhrase.checkAll (frame :: outer) [] body
    return frame

/-- What statements leave declared in their block, or their first fault. -/
def StmtPhrase.checkAll (outer : List Frame) (frame : Frame) :
    List StmtPhrase → Except AnalysisError Frame
  | [] => .ok frame
  | s :: ss => do
    let next ← s.check outer frame
    StmtPhrase.checkAll outer next ss

end

/-- What a program leaves declared in its outermost block, or its first fault. -/
def ProgramPhrase.check (p : ProgramPhrase) : Except AnalysisError Frame :=
  StmtPhrase.checkAll [] [] p.body

/-! ### What is accepted -/

namespace Checker

/-- The variables of a block with their types only. -/
def Frame.block (frame : Frame) : Block := frame.map fun entry ↦ (entry.1, entry.2.type)

private theorem agree_eq_ok {expected found : VarType} {place : Position} {u : Unit} :
    agree expected found place = .ok u ↔ found = expected := by
  unfold agree
  split <;> simp [*]

private theorem lookup_block (frame : Frame) (name : String) :
    frame.block.lookup name = (frame.lookup name).map Declared.type := by
  induction frame with
  | nil => rfl
  | cons entry frame ih =>
    rw [Frame.block, List.map_cons, List.lookup_cons, List.lookup_cons]
    split
    · rfl
    · exact ih

private theorem type?_block (frames : List Frame) (name : String) :
    Block.type? (frames.map Frame.block) name =
      (frames.findSome? (·.lookup name)).map Declared.type := by
  induction frames with
  | nil => rfl
  | cons frame frames ih =>
    rw [Block.type?, List.map_cons, List.findSome?_cons, List.findSome?_cons, lookup_block]
    cases frame.lookup name with
    | none => exact ih
    | some declared => rfl

private theorem resolve_eq_ok (frames : List Frame) {name : Mark} {type : VarType} :
    (∃ declared, resolve frames name = .ok declared ∧ declared.type = type) ↔
      Block.type? (frames.map Frame.block) name.lexeme = some type := by
  rw [type?_block, resolve]
  cases frames.findSome? (·.lookup name.lexeme) with
  | none => simp
  | some declared => simp

/-- A variable can be declared if its name is new in the block. -/
theorem declare_eq_ok {frame : Frame} {type name : Mark} {later : Block} :
    (∃ next, declare frame type name = .ok next ∧ next.block = later) ↔
      frame.block.lookup name.lexeme = none ∧
        (name.lexeme, VarType.ofKeyword type.lexeme) :: frame.block = later := by
  rw [lookup_block, declare]
  cases frame.lookup name.lexeme with
  | none => simp [Frame.block]
  | some first => simp

end Checker

mutual

/-- The checker finds the type of an expression exactly if it has one. -/
theorem ExprPhrase.infer_eq_ok {frames : List Frame} : ∀ (e : ExprPhrase) {type : VarType},
    e.infer frames = .ok type ↔ e.term.HasType (frames.map Frame.block) type
  | .digit m, type => by
    rw [ExprPhrase.infer, ExprPhrase.term]
    constructor
    · rintro ⟨⟩
      exact .digit
    · rintro ⟨⟩
      rfl
  | .sum m plus rest, type => by
    rw [ExprPhrase.infer, ExprPhrase.term, bind_eq_ok]
    constructor
    · rintro ⟨found, hfound, hrest⟩
      obtain ⟨_, hagree, ⟨⟩⟩ := bind_eq_ok.mp hrest
      obtain rfl := agree_eq_ok.mp hagree
      exact .sum (rest.infer_eq_ok.mp hfound)
    · rintro ⟨⟩
      next h =>
      exact ⟨.int, rest.infer_eq_ok.mpr h, bind_eq_ok.mpr ⟨(), agree_eq_ok.mpr rfl, rfl⟩⟩
  | .text opening chars closing, type => by
    rw [ExprPhrase.infer, ExprPhrase.term]
    constructor
    · rintro ⟨⟩
      exact .text
    · rintro ⟨⟩
      rfl
  | .bool b, type => by
    rw [ExprPhrase.infer, ExprPhrase.term, bind_eq_ok]
    constructor
    · rintro ⟨_, hcheck, ⟨⟩⟩
      exact .test (b.check_eq_ok.mp hcheck)
    · rintro ⟨⟩
      next h => exact ⟨(), b.check_eq_ok.mpr h, rfl⟩
  | .name m, type => by
    rw [ExprPhrase.infer, ExprPhrase.term, bind_eq_ok]
    constructor
    · rintro ⟨declared, hresolve, ⟨⟩⟩
      exact .name ((resolve_eq_ok _).mp ⟨declared, hresolve, rfl⟩)
    · rintro ⟨⟩
      next h =>
      obtain ⟨declared, hresolve, rfl⟩ := (resolve_eq_ok _).mpr h
      exact ⟨declared, hresolve, rfl⟩

/-- The checker accepts a condition exactly if it is well typed. -/
theorem BoolPhrase.check_eq_ok {frames : List Frame} : ∀ (b : BoolPhrase),
    b.check frames = .ok () ↔ b.condition.WellTyped (frames.map Frame.block)
  | .value m => by
    rw [BoolPhrase.check, BoolPhrase.condition]
    exact ⟨fun _ ↦ .flag, fun _ ↦ rfl⟩
  | .compare opening left operator right closing => by
    rw [BoolPhrase.check, BoolPhrase.condition, bind_eq_ok]
    constructor
    · rintro ⟨expected, hexpected, hright⟩
      obtain ⟨found, hfound, hagree⟩ := bind_eq_ok.mp hright
      obtain rfl := agree_eq_ok.mp hagree
      exact .compare (left.infer_eq_ok.mp hexpected) (right.infer_eq_ok.mp hfound)
    · rintro ⟨⟩
      next type hleft hright =>
      exact ⟨type, left.infer_eq_ok.mpr hleft,
        bind_eq_ok.mpr ⟨type, right.infer_eq_ok.mpr hright, agree_eq_ok.mpr rfl⟩⟩

end

/-- A block behind a condition is accepted exactly if both are, and declares nothing outside it. -/
theorem Checker.guarded_eq_ok {condition : BoolPhrase} {body : Except AnalysisError Frame}
    {rules : Block → Prop} {outer : List Frame} {frame : Frame} {later : Block}
    (hbody : ∀ {inner}, (∃ next, body = .ok next ∧ Frame.block next = inner) ↔ rules inner) :
    (∃ next, (do condition.check (frame :: outer); let _ ← body; return frame) = .ok next ∧
        Frame.block next = later) ↔
      condition.condition.WellTyped ((frame :: outer).map Frame.block) ∧ (∃ inner, rules inner) ∧
        frame.block = later := by
  simp only [bind_eq_ok]
  constructor
  · rintro ⟨_, ⟨_, hcondition, inner, hinner, ⟨⟩⟩, rfl⟩
    exact ⟨condition.check_eq_ok.mp hcondition, ⟨_, hbody.mp ⟨inner, hinner, rfl⟩⟩, rfl⟩
  · rintro ⟨hcondition, ⟨_, hrules⟩, rfl⟩
    obtain ⟨inner, hinner, _⟩ := hbody.mpr hrules
    exact ⟨frame, ⟨(), condition.check_eq_ok.mpr hcondition, inner, hinner, rfl⟩, rfl⟩

mutual

/-- The checker accepts a statement exactly if it is well formed. -/
theorem StmtPhrase.check_eq_ok : ∀ (s : StmtPhrase) (outer : List Frame) (frame : Frame)
    {later : Block}, (∃ next, s.check outer frame = .ok next ∧ Frame.block next = later) ↔
      s.command.WellFormed (outer.map Frame.block) frame.block later
  | .print word opening value closing, outer, frame, later => by
    simp only [StmtPhrase.check, StmtPhrase.command, bind_eq_ok]
    constructor
    · rintro ⟨_, ⟨type, hinfer, ⟨⟩⟩, rfl⟩
      exact .print (value.infer_eq_ok.mp hinfer)
    · rintro ⟨⟩
      next type h => exact ⟨frame, ⟨type, value.infer_eq_ok.mpr h, rfl⟩, rfl⟩
  | .assign name sign value, outer, frame, later => by
    simp only [StmtPhrase.check, StmtPhrase.command, bind_eq_ok]
    constructor
    · rintro ⟨_, ⟨target, htarget, found, hfound, _, hagree, ⟨⟩⟩, rfl⟩
      obtain rfl := agree_eq_ok.mp hagree
      exact .assign ((resolve_eq_ok _).mp ⟨target, htarget, rfl⟩) (value.infer_eq_ok.mp hfound)
    · rintro ⟨⟩
      next type htype h =>
      obtain ⟨target, htarget, rfl⟩ := (resolve_eq_ok (frame :: outer)).mpr htype
      exact ⟨frame, ⟨target, htarget, target.type, value.infer_eq_ok.mpr h, (),
        agree_eq_ok.mpr rfl, rfl⟩, rfl⟩
  | .declare type name, outer, frame, later => by
    rw [StmtPhrase.check, StmtPhrase.command, declare_eq_ok]
    constructor
    · rintro ⟨hnew, rfl⟩
      exact .declare hnew
    · rintro ⟨⟩
      next hnew => exact ⟨hnew, rfl⟩
  | .whileDo word condition opening body closing, outer, frame, later => by
    rw [StmtPhrase.check, StmtPhrase.command,
      guarded_eq_ok (StmtPhrase.checkAll_eq_ok body (frame :: outer) [])]
    constructor
    · rintro ⟨hcondition, ⟨inner, hbody⟩, rfl⟩
      exact .whileDo hcondition hbody
    · rintro ⟨⟩
      next hcondition hbody => exact ⟨hcondition, ⟨_, hbody⟩, rfl⟩
  | .ifThen word condition opening body closing, outer, frame, later => by
    rw [StmtPhrase.check, StmtPhrase.command,
      guarded_eq_ok (StmtPhrase.checkAll_eq_ok body (frame :: outer) [])]
    constructor
    · rintro ⟨hcondition, ⟨inner, hbody⟩, rfl⟩
      exact .ifThen hcondition hbody
    · rintro ⟨⟩
      next hcondition hbody => exact ⟨hcondition, ⟨_, hbody⟩, rfl⟩
  | .block opening body closing, outer, frame, later => by
    simp only [StmtPhrase.check, StmtPhrase.command, bind_eq_ok]
    constructor
    · rintro ⟨_, ⟨inner, hbody, ⟨⟩⟩, rfl⟩
      exact .block ((StmtPhrase.checkAll_eq_ok body _ _).mp ⟨inner, hbody, rfl⟩)
    · rintro ⟨⟩
      next h =>
      obtain ⟨inner, hbody, _⟩ := (StmtPhrase.checkAll_eq_ok body (frame :: outer) []).mpr h
      exact ⟨frame, ⟨inner, hbody, rfl⟩, rfl⟩

private theorem StmtPhrase.checkAll_eq_ok :
    ∀ (ss : List StmtPhrase) (outer : List Frame) (frame : Frame)
    {later : Block}, (∃ next, StmtPhrase.checkAll outer frame ss = .ok next ∧
        Frame.block next = later) ↔
      Commands.WellFormed (outer.map Frame.block) frame.block (StmtPhrase.commands ss) later
  | [], outer, frame, later => by
    simp only [StmtPhrase.checkAll, StmtPhrase.commands]
    constructor
    · rintro ⟨_, ⟨⟩, rfl⟩
      exact .nil
    · rintro ⟨⟩
      exact ⟨frame, rfl, rfl⟩
  | s :: ss, outer, frame, later => by
    simp only [StmtPhrase.checkAll, StmtPhrase.commands, bind_eq_ok]
    constructor
    · rintro ⟨last, ⟨next, hs, hss⟩, rfl⟩
      exact .cons ((s.check_eq_ok _ _).mp ⟨next, hs, rfl⟩)
        ((StmtPhrase.checkAll_eq_ok ss _ _).mp ⟨last, hss, rfl⟩)
    · rintro ⟨⟩
      next hs hss =>
      obtain ⟨next, hnext, rfl⟩ := (s.check_eq_ok outer frame).mpr hs
      obtain ⟨last, hlast, heq⟩ := (StmtPhrase.checkAll_eq_ok ss outer next).mpr hss
      exact ⟨last, ⟨next, hnext, hlast⟩, heq⟩

end

/-- The checker accepts exactly the well-formed programs. -/
theorem ProgramPhrase.check_eq_ok (p : ProgramPhrase) :
    (∃ frame, p.check = .ok frame) ↔ WellFormedProgram (StmtPhrase.commands p.body) := by
  constructor
  · rintro ⟨frame, h⟩
    exact ⟨_, (StmtPhrase.checkAll_eq_ok p.body _ _).mp ⟨frame, h, rfl⟩⟩
  · rintro ⟨later, h⟩
    obtain ⟨frame, hcheck, _⟩ := (StmtPhrase.checkAll_eq_ok p.body [] []).mpr h
    exact ⟨frame, hcheck⟩

end OnePage
