import OnePage.Proofs.Renaming.Lowering

/-!
# Drafting renamed programs

Programs whose resolved trees differ only in names and places are drafted alike: the code is the
same, and only the remarks on it differ.
-/

namespace OnePage

variable {R : String → String → Prop}

/-! ### Programs -/

mutual

/-- The expressions differ at most in the names that they call variables by. -/
inductive Expr.Alike : Expr → Expr → Prop where
  | digit (value : UInt8) : Expr.Alike (.digit value) (.digit value)
  | flag (value : Bool) : Expr.Alike (.flag value) (.flag value)
  | text (value : String) : Expr.Alike (.text value) (.text value)
  | var (symbol : SymbolId) (name other : String) :
      Expr.Alike (.var symbol name) (.var symbol other)
  | sum {first other : Expr} {rest others : List Expr} : Expr.Alike first other →
      Expr.AllAlike rest others → Expr.Alike (.sum first rest) (.sum other others)
  | compare (equal : Bool) {left right left' right' : Expr} : Expr.Alike left left' →
      Expr.Alike right right' → Expr.Alike (.compare equal left right) (.compare equal left' right')
  | oddCompare (operator : String) : Expr.Alike (.oddCompare operator) (.oddCompare operator)
  | invalid {e f : CodeError} : e.bare = f.bare → Expr.Alike (.invalid e) (.invalid f)

inductive Expr.AllAlike : List Expr → List Expr → Prop where
  | nil : Expr.AllAlike [] []
  | cons {e f : Expr} {es fs : List Expr} : Expr.Alike e f → Expr.AllAlike es fs →
      Expr.AllAlike (e :: es) (f :: fs)

end

mutual

/-- The statements differ at most in the names that they call variables by. -/
inductive Stmt.Alike : Stmt → Stmt → Prop where
  | block {body other : List Stmt} : Stmt.AllAlike body other →
      Stmt.Alike (.block body) (.block other)
  | declare (symbol : SymbolId) : Stmt.Alike (.declare symbol) (.declare symbol)
  | assign (symbol : SymbolId) {value other : Expr} : value.Alike other →
      Stmt.Alike (.assign symbol value) (.assign symbol other)
  | print {value other : Expr} : value.Alike other → Stmt.Alike (.print value) (.print other)
  | ifThen {condition condition' : Expr} {body body' : Stmt} : condition.Alike condition' →
      Stmt.Alike body body' → Stmt.Alike (.ifThen condition body) (.ifThen condition' body')
  | whileDo {condition condition' : Expr} {body body' : Stmt} : condition.Alike condition' →
      Stmt.Alike body body' → Stmt.Alike (.whileDo condition body) (.whileDo condition' body')
  | invalid {e f : CodeError} : e.bare = f.bare → Stmt.Alike (.invalid e) (.invalid f)

inductive Stmt.AllAlike : List Stmt → List Stmt → Prop where
  | nil : Stmt.AllAlike [] []
  | cons {s t : Stmt} {ss ts : List Stmt} : Stmt.Alike s t → Stmt.AllAlike ss ts →
      Stmt.AllAlike (s :: ss) (t :: ts)

end

namespace Expr

private theorem AllAlike.append {es fs xs ys : List Expr} (h : AllAlike es fs)
    (k : AllAlike xs ys) :
    AllAlike (es ++ xs) (fs ++ ys) := by
  cases h with
  | nil => exact k
  | cons hhead htail => exact .cons hhead (htail.append k)

private theorem Alike.terms {e f : Expr} (h : e.Alike f) : AllAlike e.terms f.terms := by
  have hself := h
  cases h with
  | sum hfirst hrest => exact .cons hfirst hrest
  | _ => exact .cons hself .nil

private theorem AllAlike.flatMap_terms {es fs : List Expr} (h : AllAlike es fs) :
    AllAlike (es.flatMap terms) (fs.flatMap terms) := by
  cases h with
  | nil => exact .nil
  | cons hhead htail =>
    rw [List.flatMap_cons, List.flatMap_cons]
    exact hhead.terms.append htail.flatMap_terms

private theorem alike_sumAll {es fs : List Expr} (h : AllAlike es fs) (operator other : String) :
    (sumAll operator es).Alike (sumAll other fs) := by
  cases h with
  | nil => exact .invalid rfl
  | cons hfirst hrest => exact .sum hfirst hrest

private theorem alike_compareAll {es fs : List Expr} (h : AllAlike es fs) (operator : String) :
    (compareAll operator es).Alike (compareAll operator fs) := by
  cases h with
  | nil => exact .invalid rfl
  | cons hfirst hrest =>
    cases hrest with
    | nil => exact .oddCompare operator
    | cons hsecond hmore =>
      cases hmore with
      | nil => exact .compare _ hfirst hsecond
      | cons _ _ => exact .oddCompare operator

/-- Only an identifier is renamed, and it is read as the symbol that it stands for. -/
theorem alike_ofToken {t u : Token} (h : t.Renamed R u) (symbol : Option SymbolId) :
    (ofToken t symbol).Alike (ofToken u symbol) := by
  unfold ofToken
  rw [h.kind]
  split
  · next hkind =>
    rw [h.lexeme (by simp [hkind])]
    split
    · exact .digit _
    · exact .invalid rfl
  · next hkind =>
    rw [h.lexeme (by simp [hkind])]
    exact .flag _
  · split
    · exact .var _ _ _
    · exact .invalid rfl
  · exact .invalid rfl

mutual

private theorem ofTree_renamed {t u : Tree Resolved} (h : Tree.Alike (Tree.LabelsRenamed R) t u) :
    (ofTree t).Alike (ofTree u) := by
  cases h with
  | @node r s ts us hroot hchildren =>
    have hall := ofTrees_renamed hchildren
    obtain ⟨node, symbol⟩ := r
    obtain ⟨node', symbol'⟩ := s
    obtain ⟨hnode, hsymbol⟩ := hroot
    dsimp only [Tree.label] at hnode hsymbol
    subst hsymbol
    rw [ofTree, ofTree]
    cases hnode with
    | literal value p q => exact .text value
    | branch p => exact .invalid rfl
    | @leaf a b hab =>
      dsimp only
      rw [hab.kind]
      split
      · exact alike_sumAll hall.flatMap_terms _ _
      · next hkind =>
        rw [hab.lexeme (by simp [hkind])]
        exact alike_compareAll hall _
      · exact alike_ofToken hab _

private theorem ofTrees_renamed {ts us : Forest Resolved}
    (h : Forest.Alike (Tree.LabelsRenamed R) ts us) : AllAlike (ofTrees ts) (ofTrees us) := by
  cases h with
  | nil => exact .nil
  | cons ht hts => exact .cons (ofTree_renamed ht) (ofTrees_renamed hts)

end

end Expr

namespace Stmt

section Shapes

variable {ts us : Forest Resolved} (h : Forest.Alike (Tree.LabelsRenamed R) ts us) (a b : Node)
include h

private theorem alike_ofDeclaration : (ofDeclaration a ts).Alike (ofDeclaration b us) := by
  rcases h with _ | ⟨_, _ | ⟨hname, _ | ⟨_, _⟩⟩⟩
  · exact .invalid rfl
  · exact .invalid rfl
  · rw [ofDeclaration, ofDeclaration, hname.root.symbol]
    split
    · exact .declare _
    · exact .invalid rfl
  · exact .invalid rfl

private theorem alike_ofAssignment : (ofAssignment a ts).Alike (ofAssignment b us) := by
  rcases h with _ | ⟨htarget, _ | ⟨hvalue, _ | ⟨_, _⟩⟩⟩
  · exact .invalid rfl
  · exact .invalid rfl
  · rw [ofAssignment, ofAssignment, htarget.root.symbol]
    split
    · exact .assign _ (Expr.ofTree_renamed hvalue)
    · exact .invalid rfl
  · exact .invalid rfl

private theorem alike_ofPrint : (ofPrint a ts).Alike (ofPrint b us) := by
  rcases h with _ | ⟨hvalue, _ | ⟨_, _⟩⟩
  · exact .invalid rfl
  · exact .print (Expr.ofTree_renamed hvalue)
  · exact .invalid rfl

end Shapes

mutual

/-- Trees with renamed labels are read as expressions that differ only in names. -/
theorem ofTree_renamed {t u : Tree Resolved} (h : Tree.Alike (Tree.LabelsRenamed R) t u) :
    (ofTree t).Alike (ofTree u) := by
  cases h with
  | @node r s ts us hroot hchildren =>
    obtain ⟨node, symbol⟩ := r
    obtain ⟨node', symbol'⟩ := s
    obtain ⟨hnode, hsymbol⟩ := hroot
    dsimp only [Tree.label] at hnode hsymbol
    cases hnode with
    | literal value p q => exact .invalid rfl
    | leaf _ => exact .invalid rfl
    | branch p =>
      cases p with
      | block => exact .block (ofTrees_renamed hchildren)
      | varDecl => exact alike_ofDeclaration hchildren _ _
      | assignmentStatement => exact alike_ofAssignment hchildren _ _
      | printStatement => exact alike_ofPrint hchildren _ _
      | ifStatement =>
        rcases hchildren with _ | ⟨hcondition, _ | ⟨hbody, _ | ⟨_, _⟩⟩⟩
        · exact .invalid rfl
        · exact .invalid rfl
        · exact .ifThen (Expr.ofTree_renamed hcondition) (ofTree_renamed hbody)
        · exact .invalid rfl
      | whileStatement =>
        rcases hchildren with _ | ⟨hcondition, _ | ⟨hbody, _ | ⟨_, _⟩⟩⟩
        · exact .invalid rfl
        · exact .invalid rfl
        · exact .whileDo (Expr.ofTree_renamed hcondition) (ofTree_renamed hbody)
        · exact .invalid rfl
      | _ => exact .invalid rfl

private theorem ofTrees_renamed {ts us : Forest Resolved}
    (h : Forest.Alike (Tree.LabelsRenamed R) ts us) : AllAlike (ofTrees ts) (ofTrees us) := by
  cases h with
  | nil => exact .nil
  | cons ht hts => exact .cons (ofTree_renamed ht) (ofTrees_renamed hts)

end

end Stmt

/-! ### Drafts -/

/-- The line without the words of a remark. -/
def Line.bare : Line → Line
  | note profile _ => note profile ""
  | line => line

/-- The drafts differ at most in the words of their remarks. -/
structure Draft.Alike (d e : Draft) : Prop where
  lines : e.lines.toList.map Line.bare = d.lines.toList.map Line.bare
  slots : e.slots = d.slots
  distances : e.distances = d.distances
  homes : e.homes = d.homes
  zero : e.zero = d.zero

/-- Remarks take no code. -/
theorem Draft.Alike.codeSize {d e : Draft} (h : d.Alike e) : e.codeSize = d.codeSize := by
  have hwidth : ∀ l : Line, l.bare.width = l.width := by
    intro l
    cases l <;> rfl
  have hbare : ∀ lines : List Line, (lines.map Line.bare).foldr (fun l n ↦ l.width + n) 0 =
      lines.foldr (fun l n ↦ l.width + n) 0 := by
    intro lines
    simp only [List.foldr_map, hwidth]
  rw [Draft.codeSize, ← hbare, h.lines, hbare, Draft.codeSize]

namespace Drafting

/-- Two steps of drafting go the same way. -/
def Alike {α β : Type} (V : α → β → Prop) (x : Drafting α) (y : Drafting β) : Prop :=
  StepsAlike Draft.Alike (fun e f : CodeError ↦ e.bare = f.bare) V x y

private theorem alike_add {l m : Line} (h : m.bare = l.bare) : Alike Eq (add l) (add m) := by
  refine StepsAlike.modify fun d e hd ↦ ⟨?_, hd.slots, hd.distances, hd.homes, hd.zero⟩
  simp [hd.lines, h]

private theorem alike_emit (i : Code) : Alike Eq (emit i) (emit i) := alike_add rfl

private theorem alike_note (text other : String) :
    Alike Eq (note text) (note other) := alike_add rfl

private theorem alike_intern (text : String) : Alike Eq (intern text) (intern text) :=
  (alike_add rfl).next fun _ ↦ StepsAlike.pure rfl

private theorem alike_newSlot (owner : Option SymbolId) :
    Alike Eq (newSlot owner) (newSlot owner) := by
  refine StepsAlike.modifyGet fun d e hd ↦ ⟨?_, hd.lines, ?_, hd.distances, hd.homes, hd.zero⟩
  · rw [hd.slots]
  · rw [hd.slots]

private theorem alike_zeroSlot : Alike Eq zeroSlot zeroSlot := by
  refine StepsAlike.get.bind fun d e hd ↦ ?_
  rw [hd.zero]
  split
  · exact StepsAlike.pure rfl
  · refine (alike_newSlot none).next fun slot ↦ StepsAlike.next ?_ fun _ ↦ StepsAlike.pure rfl
    exact StepsAlike.modify fun d e hd ↦ ⟨hd.lines, hd.slots, hd.distances, hd.homes, rfl⟩

private theorem alike_variableSlot (table other : ScopeTable) (symbol : SymbolId) :
    Alike Eq (variableSlot table symbol) (variableSlot other symbol) := by
  refine StepsAlike.get.bind fun d e hd ↦ ?_
  rw [hd.homes]
  split
  · exact StepsAlike.pure rfl
  · exact StepsAlike.throw rfl

private theorem alike_callSystem (number : UInt8) :
    Alike Eq (callSystem number) (callSystem number) :=
  (alike_emit _).next fun _ ↦ alike_emit _

private theorem alike_branchForward : Alike Eq branchForward branchForward := by
  refine StepsAlike.next (StepsAlike.modifyGet fun d e hd ↦ ?_) fun jump ↦
    (alike_emit _).next fun _ ↦ StepsAlike.get.bind fun d e hd ↦ StepsAlike.pure ?_
  · exact ⟨by rw [hd.distances], hd.lines, hd.slots, by rw [hd.distances], hd.homes, hd.zero⟩
  · rw [hd.codeSize]

private theorem alike_land (jump origin : Nat) :
    Alike Eq (land jump origin) (land jump origin) := by
  refine StepsAlike.get.bind fun d e hd ↦ (alike_note _ _).next fun _ ↦
    StepsAlike.modify fun d' e' hd' ↦ ?_
  exact ⟨hd'.lines, hd'.slots, by rw [hd'.distances, hd.codeSize], hd'.homes, hd'.zero⟩

private theorem alike_branchBack (start : Nat) :
    Alike Eq (branchBack start) (branchBack start) := by
  refine alike_zeroSlot.next fun slot ↦ (alike_emit _).next fun _ ↦ (alike_emit _).next fun _ ↦
    StepsAlike.get.bind fun d e hd ↦ (alike_note _ _).next fun _ ↦ ?_
  rw [hd.codeSize]
  exact alike_emit _

end Drafting

open Drafting

namespace Expr

variable {e f : Expr} {es fs : List Expr} {x y : Drafting Unit}

private theorem alike_check (h : e.Alike f) : Drafting.Alike Eq e.check f.check := by
  cases h with
  | invalid he => exact StepsAlike.throw he
  | _ => exact StepsAlike.pure rfl

private theorem alike_checkAll {es fs : List Expr} (h : AllAlike es fs) :
    Drafting.Alike Eq (checkAll es) (checkAll fs) := by
  cases h with
  | nil => exact StepsAlike.pure rfl
  | cons hhead htail => exact (alike_check hhead).next fun _ ↦ alike_checkAll htail

private theorem alike_loadConst (value : UInt8) :
    Drafting.Alike Eq (loadConst value) (loadConst value) :=
  alike_emit _

private theorem alike_loadText (value : String) :
    Drafting.Alike Eq (loadText value) (loadText value) :=
  (alike_intern value).next fun _ ↦ alike_emit _

private theorem alike_keep (h : Drafting.Alike Eq x y) : Drafting.Alike Eq (keep x) (keep y) :=
  (alike_newSlot none).next fun _ ↦ StepsAlike.next h fun _ ↦ (alike_emit _).next fun _ ↦
    StepsAlike.pure rfl

private theorem alike_accumulate {xs ys : List (Drafting Unit)}
    (h : List.Forall₂ (Drafting.Alike Eq) xs ys) (slot : Nat) :
    Drafting.Alike Eq (accumulate slot xs) (accumulate slot ys) := by
  induction h with
  | nil => exact StepsAlike.pure rfl
  | cons hhead _ ih =>
    exact StepsAlike.next hhead fun _ ↦ (alike_emit _).next fun _ ↦ (alike_emit _).next fun _ ↦ ih

private theorem alike_addUp {xs ys : List (Drafting Unit)} (hfirst : Drafting.Alike Eq x y)
    (hrest : List.Forall₂ (Drafting.Alike Eq) xs ys) :
    Drafting.Alike Eq (addUp x xs) (addUp y ys) :=
  (alike_keep hfirst).next fun total ↦ (alike_accumulate hrest total).next fun _ ↦
    StepsAlike.pure rfl

private theorem alike_compareSlots (left right : Nat) :
    Drafting.Alike Eq (compareSlots left right) (compareSlots left right) :=
  (alike_emit _).next fun _ ↦ alike_emit _

private theorem alike_loadComparison (equal : Bool) (left right : Nat) :
    Drafting.Alike Eq (loadComparison equal left right) (loadComparison equal left right) :=
  (alike_compareSlots left right).next fun _ ↦ (alike_loadConst _).next fun _ ↦
    (alike_emit _).next fun _ ↦ alike_loadConst _

section Operands

variable {table other : ScopeTable}

mutual

private theorem alike_load {e f : Expr} (h : e.Alike f) :
    Drafting.Alike Eq (load table e) (load other f) := by
  cases h with
  | digit value => exact alike_loadConst value
  | flag value => exact alike_loadConst _
  | text value => exact alike_loadText value
  | var symbol _ _ => exact (alike_variableSlot table other symbol).next fun _ ↦ alike_emit _
  | sum hfirst hrest =>
    rw [load, load]
    exact (alike_checkAll (.cons hfirst hrest)).next fun _ ↦
      StepsAlike.discard (alike_addUp (alike_load hfirst) (alike_loads hrest))
  | compare equal hleft hright =>
    rw [load, load]
    exact (alike_checkAll (.cons hleft (.cons hright .nil))).next fun _ ↦
      (alike_toSlot hleft).next fun _ ↦ (alike_toSlot hright).next fun _ ↦
        alike_loadComparison equal _ _
  | oddCompare operator => exact StepsAlike.throw rfl
  | invalid he => exact StepsAlike.throw he

private theorem alike_toSlot {e f : Expr} (h : e.Alike f) :
    Drafting.Alike Eq (toSlot table e) (toSlot other f) := by
  cases h with
  | digit value => exact alike_keep (alike_loadConst value)
  | flag value => exact alike_keep (alike_loadConst _)
  | text value => exact alike_keep (alike_loadText value)
  | var symbol _ _ => exact alike_variableSlot table other symbol
  | sum hfirst hrest =>
    rw [toSlot, toSlot]
    exact (alike_checkAll (.cons hfirst hrest)).next fun _ ↦
      alike_addUp (alike_load hfirst) (alike_loads hrest)
  | compare equal hleft hright =>
    rw [toSlot, toSlot]
    exact alike_keep ((alike_checkAll (.cons hleft (.cons hright .nil))).next fun _ ↦
      (alike_toSlot hleft).next fun _ ↦ (alike_toSlot hright).next fun _ ↦
        alike_loadComparison equal _ _)
  | oddCompare operator => exact StepsAlike.throw rfl
  | invalid he => exact StepsAlike.throw he

private theorem alike_loads {es fs : List Expr} (h : AllAlike es fs) :
    List.Forall₂ (Drafting.Alike Eq) (loads table es) (loads other fs) := by
  cases h with
  | nil => exact .nil
  | cons hhead htail => exact .cons (alike_load hhead) (alike_loads htail)

end

private theorem alike_condition (h : e.Alike f) :
    Drafting.Alike Eq (condition table e) (condition other f) := by
  have hslot : Drafting.Alike Eq
      (do let slot ← toSlot table e; emit (.ldx (.const 1)); emit (.cpx slot))
      (do let slot ← toSlot other f; emit (.ldx (.const 1)); emit (.cpx slot)) :=
    (alike_toSlot h).next fun _ ↦ (alike_emit _).next fun _ ↦ alike_emit _
  cases h with
  | compare equal hleft hright =>
    cases equal with
    | true =>
      exact (alike_checkAll (.cons hleft (.cons hright .nil))).next fun _ ↦
        (alike_toSlot hleft).next fun _ ↦ (alike_toSlot hright).next fun _ ↦
          alike_compareSlots _ _
    | false => exact hslot
  | _ => exact hslot

end Operands

end Expr

namespace Stmt

private theorem alike_printText (value : String) :
    Drafting.Alike Eq (printText value) (printText value) :=
  (alike_intern value).next fun _ ↦ (alike_emit _).next fun _ ↦ alike_callSystem 2

private theorem alike_printFlag (slot : Nat) :
    Drafting.Alike Eq (printFlag slot) (printFlag slot) :=
  (alike_intern _).next fun _ ↦ (alike_intern _).next fun _ ↦ (alike_emit _).next fun _ ↦
    (alike_emit _).next fun _ ↦ (alike_emit _).next fun _ ↦ (alike_emit _).next fun _ ↦
      (alike_emit _).next fun _ ↦ alike_callSystem 2

private theorem alike_printNumber (slot : Nat) :
    Drafting.Alike Eq (printNumber slot) (printNumber slot) :=
  (alike_emit _).next fun _ ↦ alike_callSystem 1

private theorem alike_printVariable (type : VarType) (name other : String) (slot : Nat) :
    Drafting.Alike Eq (printVariable type name slot) (printVariable type other slot) := by
  cases type with
  | int => exact alike_printNumber slot
  | string => exact (alike_emit _).next fun _ ↦ alike_callSystem 2
  | boolean => exact alike_printFlag slot
  | none => exact StepsAlike.throw rfl

section Statements

variable {table other : ScopeTable}

/-- Only the types of symbols, not their names, decide how a value is printed. -/
theorem alike_printValue (htypes : other.typeOf = table.typeOf) {e f : Expr} (h : e.Alike f) :
    Drafting.Alike Eq (printValue table e) (printValue other f) := by
  have hflag : Drafting.Alike Eq (do printFlag (← e.toSlot table))
      (do printFlag (← f.toSlot other)) :=
    (Expr.alike_toSlot h).next fun slot ↦ alike_printFlag slot
  have hself := h
  cases h with
  | digit value => exact (alike_emit _).next fun _ ↦ alike_callSystem 1
  | flag value => exact alike_printText _
  | text value => exact alike_printText value
  | var symbol name name' =>
    rw [printValue, printValue, htypes]
    exact (alike_variableSlot table other symbol).next fun slot ↦ alike_printVariable _ _ _ slot
  | sum _ _ => exact (Expr.alike_toSlot hself).next fun slot ↦ alike_printNumber slot
  | compare _ _ _ => exact hflag
  | oddCompare _ => exact hflag
  | invalid _ => exact hflag

private theorem alike_declareVariable (htypes : other.typeOf = table.typeOf) (symbol : SymbolId) :
    Drafting.Alike Eq (declareVariable table symbol) (declareVariable other symbol) := by
  unfold declareVariable
  rw [htypes]
  refine (alike_newSlot _).next fun slot ↦ StepsAlike.next (StepsAlike.modify fun d e hd ↦ ?_)
    fun _ ↦ (alike_note _ _).next fun _ ↦ ?_
  · exact ⟨hd.lines, hd.slots, hd.distances, by rw [hd.homes], hd.zero⟩
  · dsimp only
    split
    · exact (Expr.alike_loadText _).next fun _ ↦ alike_emit _
    · exact (Expr.alike_loadConst _).next fun _ ↦ alike_emit _

mutual

private theorem alike_draft (htypes : other.typeOf = table.typeOf) {s t : Stmt} (h : s.Alike t) :
    Drafting.Alike Eq (draft table s) (draft other t) := by
  cases h with
  | block hbody => exact alike_draftAll htypes hbody
  | declare symbol => exact alike_declareVariable htypes symbol
  | assign symbol hvalue =>
    exact (alike_variableSlot table other symbol).next fun _ ↦ (Expr.alike_load hvalue).next
      fun _ ↦ alike_emit _
  | print hvalue => exact alike_printValue htypes hvalue
  | ifThen hcondition hbody =>
    rw [draft, draft]
    exact (Expr.alike_condition hcondition).next fun _ ↦ alike_branchForward.next fun jump ↦
      (alike_draft htypes hbody).next fun _ ↦ alike_land _ _
  | whileDo hcondition hbody =>
    rw [draft, draft]
    refine StepsAlike.get.bind fun d e hd ↦ ?_
    rw [hd.codeSize]
    exact (Expr.alike_condition hcondition).next fun _ ↦ alike_branchForward.next fun jump ↦
      (alike_draft htypes hbody).next fun _ ↦ (alike_branchBack _).next fun _ ↦ alike_land _ _
  | invalid he => exact StepsAlike.throw he

private theorem alike_draftAll (htypes : other.typeOf = table.typeOf) {ss ts : List Stmt}
    (h : AllAlike ss ts) :
    Drafting.Alike Eq (draftAll table ss) (draftAll other ts) := by
  cases h with
  | nil => exact StepsAlike.pure rfl
  | cons hhead htail => exact (alike_draft htypes hhead).next fun _ ↦ alike_draftAll htypes htail

end

/-- Programs that differ only in names are drafted alike. -/
theorem alike_draftProgram (htypes : other.typeOf = table.typeOf) {s t : Stmt} (h : s.Alike t) :
    Drafting.Alike Eq (draftProgram table s) (draftProgram other t) :=
  (alike_note _ _).next fun _ ↦ (alike_draft htypes h).next fun _ ↦ (alike_add rfl).next fun _ ↦
    alike_emit _

end Statements

end Stmt

end OnePage
