import Mathlib.Data.List.Forall2
import OnePage.Proofs.Checker
import OnePage.Proofs.Scoping

/-!
# Scopes as a stack of blocks

The scopes from one outward show a stack of blocks if each scope has just the names of its block,
with symbols of the same types and lines. Opening a scope, declaring a variable, leaving a scope and
marking symbols keep a table in step with such a stack.
-/

namespace OnePage.ScopeTable

open Checker

variable {table next : ScopeTable} {scope : ScopeId} {frame : Frame} {frames : List Frame}

/-- The symbol is of the type, and declared on the line, of a variable. -/
def Records (table : ScopeTable) (symbol : SymbolId) (d : Declared) : Prop :=
  ∃ s, table.symbols[symbol]? = some s ∧ s.type = d.type ∧ s.token.position.line = d.line

/-- A symbol that records a variable has the type of that variable. -/
theorem Records.typeOf {symbol : SymbolId} {d : Declared} (h : table.Records symbol d) :
    table.typeOf symbol = d.type := by
  obtain ⟨s, hs, htype, _⟩ := h
  rw [ScopeTable.typeOf, hs]
  exact htype

/-- The scope has the names of a block. -/
def Shows (table : ScopeTable) (scope : ScopeId) (frame : Frame) : Prop :=
  ∀ name, Option.Rel table.Records (table.lookupLocal? scope name) (frame.lookup name)

/-- The scopes from one outward have the names of the blocks of a stack, and the outermost scope has
none. -/
structure Stacked (table : ScopeTable) (scope : ScopeId) (frames : List Frame) : Prop where
  scopes_lt : ∀ s ∈ scope :: table.ancestors scope, s < table.scopes.size
  distinct : (scope :: table.ancestors scope).Nodup
  shows : List.Forall₂ table.Shows (scope :: table.ancestors scope) (frames ++ [[]])

/-- At the start there are no blocks, and no names. -/
theorem stacked_start : Stacked .start 0 [] where
  scopes_lt := by decide
  distinct := by decide
  shows := .cons (fun _ ↦ .none) .nil

/-! ### Looking names up -/

/-- A name is found in a scope just if it is in the block, and then stands for its variable. -/
theorem Stacked.lookupLocal (h : Stacked table scope (frame :: frames)) (name : String) :
    Option.Rel table.Records (table.lookupLocal? scope name) (frame.lookup name) := by
  cases h.shows with
  | cons hs _ => exact hs name

private theorem lookup_of_shows {scopes : List ScopeId} {frames : List Frame}
    (h : List.Forall₂ table.Shows scopes frames) (name : String) :
    Option.Rel table.Records (scopes.findSome? (table.lookupLocal? · name))
      (frames.findSome? (·.lookup name)) := by
  induction h with
  | nil => exact .none
  | @cons s f _ _ hs _ ih =>
    rw [List.findSome?_cons, List.findSome?_cons]
    generalize table.lookupLocal? s name = found, List.lookup name f = known, hs name = hname
    cases hname with
    | some hr => exact .some hr
    | none => exact ih

/-- A name is found from a scope outward just if it is in one of the blocks, and then stands for the
variable of the innermost. -/
theorem Stacked.lookup (h : Stacked table scope frames) (name : String) :
    Option.Rel table.Records (table.lookup? scope name) (frames.findSome? (·.lookup name)) := by
  have hall := lookup_of_shows h.shows name
  rw [List.findSome?_append] at hall
  have hlast : ((frames.findSome? (·.lookup name)).or
      ([([] : Frame)].findSome? (·.lookup name))) = frames.findSome? (·.lookup name) :=
    Option.or_none
  rwa [hlast] at hall

/-! ### Changes -/

/-- What a name is found to stand for stays the same while the symbols known stay. -/
theorem rel_records {symbol : Option SymbolId} {known : Option Declared}
    (hrecords : ∀ symbol d, table.Records symbol d → next.Records symbol d)
    (h : Option.Rel table.Records symbol known) : Option.Rel next.Records symbol known := by
  cases h with
  | some hr => exact .some (hrecords _ _ hr)
  | none => exact .none

/-- A scope goes on to have the names of its block if its names and the symbols known stay. -/
theorem Shows.keep (h : Shows table scope frame) (hnames : next.names scope = table.names scope)
    (hrecords : ∀ symbol d, table.Records symbol d → next.Records symbol d) :
    Shows next scope frame := by
  intro name
  rw [lookupLocal?, hnames]
  exact rel_records hrecords (h name)

/-- The same table, except for what symbols are marked with. -/
structure Marks (table next : ScopeTable) : Prop where
  same : Same table next
  records : ∀ symbol d, table.Records symbol d → next.Records symbol d

/-- A table differs from itself in no mark. -/
theorem Marks.refl (table : ScopeTable) : Marks table table := ⟨.refl table, fun _ _ h ↦ h⟩

/-- Marks may be changed again. -/
theorem Marks.trans {mid : ScopeTable} (h : Marks table mid) (k : Marks mid next) :
    Marks table next :=
  ⟨h.same.trans k.same, fun symbol d hr ↦ k.records symbol d (h.records symbol d hr)⟩

private theorem records_modify {symbols : Array Symbol} {scopes : Array Scope}
    {symbol other : SymbolId} {d : Declared} {mark : Symbol → Symbol}
    (hmark : ∀ s, (mark s).type = s.type ∧ (mark s).token = s.token)
    (h : Records { scopes, symbols } other d) :
    Records { scopes, symbols := symbols.modify symbol mark } other d := by
  obtain ⟨s, hs, htype, hline⟩ := h
  by_cases he : symbol = other
  · refine ⟨mark s, ?_, (hmark s).1.trans htype, by rw [(hmark s).2, hline]⟩
    simpa [Array.getElem?_modify, he] using ⟨s, hs, rfl⟩
  · exact ⟨s, by simpa [Array.getElem?_modify, he] using hs, htype, hline⟩

/-- Marking a symbol as used changes only marks. -/
theorem marks_markUsed (table : ScopeTable) (symbol : SymbolId) :
    Marks table (table.markUsed symbol) :=
  ⟨same_markUsed table symbol, fun _ _ ↦ records_modify fun _ ↦ ⟨rfl, rfl⟩⟩

/-- Marking a symbol as initialized changes only marks. -/
theorem marks_markInitialized (table : ScopeTable) (symbol : SymbolId) :
    Marks table (table.markInitialized symbol) :=
  ⟨same_markInitialized table symbol, fun _ _ ↦ records_modify fun _ ↦ ⟨rfl, rfl⟩⟩

/-- The names of a stack stay the same whatever is marked. -/
theorem Stacked.marks (h : Stacked table scope frames) (k : Marks table next) :
    Stacked next scope frames := by
  have hancestors : next.ancestors scope = table.ancestors scope := by
    rw [ancestors, k.same.scopes, ancestors]
  refine ⟨?_, hancestors ▸ h.distinct, hancestors ▸ h.shows.imp fun s frame hs ↦ ?_⟩
  · rw [hancestors, k.same.scopes]
    exact h.scopes_lt
  · refine hs.keep ?_ k.records
    rw [ScopeTable.names, k.same.scopes, ScopeTable.names]

/-- A scope just opened is a new block, without names. -/
theorem Stacked.adopt (h : Stacked table scope frames) :
    Stacked (table.adopt scope).2 table.scopes.size ([] :: frames) := by
  have hsize : (table.adopt scope).2.scopes.size = table.scopes.size + 1 := by
    simp [ScopeTable.adopt]
  have hnames : table.names table.scopes.size = [] := by simp [ScopeTable.names]
  constructor
  · rw [ancestors_adopt_self, hsize]
    exact List.forall_mem_cons.mpr
      ⟨Nat.lt_succ_self _, fun s hs ↦ Nat.lt_succ_of_lt (h.scopes_lt s hs)⟩
  · rw [ancestors_adopt_self]
    exact List.nodup_cons.mpr ⟨fun hm ↦ Nat.lt_irrefl _ (h.scopes_lt _ hm), h.distinct⟩
  · rw [ancestors_adopt_self]
    refine .cons (fun name ↦ ?_) (h.shows.imp fun s frame hs ↦ ?_)
    · rw [lookupLocal?, names_adopt, hnames]
      exact .none
    · exact hs.keep (names_adopt table scope s) fun _ _ hr ↦ hr

/-- Leaving a scope drops its block. -/
theorem Stacked.leave {inner : ScopeId} (h : Stacked table inner (frame :: frames))
    (hinner : table.ancestors inner = scope :: table.ancestors scope) :
    Stacked table scope frames := by
  obtain ⟨hlt, hdistinct, hshows⟩ := h
  rw [hinner] at hlt hdistinct hshows
  cases hshows with
  | cons _ hshows =>
    exact ⟨(List.forall_mem_cons.mp hlt).2, (List.nodup_cons.mp hdistinct).2, hshows⟩

/-- Symbols keep their types and lines when another is declared. -/
theorem Records.declare {symbol : SymbolId} {d : Declared} (h : table.Records symbol d)
    (scope : ScopeId) (type : VarType) (token : Token) :
    (table.declare scope type token).2.Records symbol d := by
  obtain ⟨s, hs, htype, hline⟩ := h
  have hlt : symbol < table.symbols.size := (Array.getElem?_eq_some_iff.mp hs).1
  refine ⟨s, ?_, htype, hline⟩
  simpa [ScopeTable.declare, Array.getElem?_push, Nat.ne_of_lt hlt] using hs

/-- A scope in which a variable is declared has the names of its block and that of the variable. -/
theorem Shows.declare (h : Shows table scope frame) (hscope : scope < table.scopes.size)
    (type : VarType) (token : Token) : Shows (table.declare scope type token).2 scope
      ((token.lexeme, { type, line := token.position.line }) :: frame) := by
  intro name
  rw [lookupLocal?, names_declare_self hscope, List.lookup_cons]
  by_cases hname : name = token.lexeme
  · subst hname
    rw [Names.find?_insert_self, beq_self_eq_true]
    exact .some ⟨{ name := token.lexeme, type, token, scope }, by simp [ScopeTable.declare], rfl,
      rfl⟩
  · rw [Names.find?_insert_of_ne _ _ hname, beq_false_of_ne hname]
    exact rel_records (fun _ _ hr ↦ hr.declare scope type token) (h name)

/-- Declaring a variable adds it to the innermost block. -/
theorem Stacked.declare (h : Stacked table scope (frame :: frames)) (type : VarType)
    (token : Token) : Stacked (table.declare scope type token).2 scope
      (((token.lexeme, { type, line := token.position.line }) :: frame) :: frames) := by
  constructor
  · rw [ancestors_declare]
    simpa [ScopeTable.declare] using h.scopes_lt
  · rw [ancestors_declare]
    exact h.distinct
  · rw [ancestors_declare]
    obtain ⟨hnotin, -⟩ := List.nodup_cons.mp h.distinct
    cases h.shows with
    | cons hfirst hrest =>
      -- The scopes around have other names, since none of them is this one.
      have houter := (List.forall₂_and_left _ _).mpr
        ⟨fun s hs ↦ ne_of_mem_of_not_mem hs hnotin, hrest⟩
      refine .cons (hfirst.declare (h.scopes_lt scope (List.mem_cons_self ..)) type token)
        (houter.imp fun s frame hs ↦ ?_)
      exact hs.2.keep (names_declare_of_ne hs.1.symm type token)
        fun _ _ hr ↦ hr.declare scope type token

end OnePage.ScopeTable
