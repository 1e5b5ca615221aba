import OnePage.Proofs.Opening

/-!
# Every symbol is listed once

The scopes of a table hold the numbers of all its symbols, each of them once. This is so at the
start, and each change that an analysis makes keeps it: a new scope is empty, a declaration of a
name that is new in its scope adds the next number, and marks change no number. So the listing of a
table, which goes through the scopes in another order, lists every symbol once.
-/

namespace OnePage

/-- Inserting a name that is not there adds it, wherever in the order it comes. -/
theorem Names.insert_perm {name : String} {names : Names} (value : Nat)
    (h : find? name names = none) : (insert name value names).Perm ((name, value) :: names) := by
  induction names with
  | nil => exact .refl _
  | cons entry rest ih =>
    obtain ⟨n, v⟩ := entry
    rw [find?] at h
    split at h
    · cases h
    · next hne =>
      rw [insert, if_neg hne]
      split
      · exact .refl _
      · exact ((ih h).cons _).trans (.swap _ _ _)

namespace ScopeTable

/-- The symbols that names stand for, scope by scope in the order in which they were opened. -/
def filed (table : ScopeTable) : List SymbolId :=
  table.scopes.toList.flatMap fun s ↦ s.names.map Prod.snd

/-- Names stand for every symbol, and for each of them once. -/
def Tallied (table : ScopeTable) : Prop := table.filed.Perm (List.range table.symbols.size)

variable {table next : ScopeTable}

/-- At the start there are no symbols, and no names. -/
theorem tallied_start : Tallied .start := .refl _

/-- A new scope keeps each symbol under one name. -/
theorem Tallied.adopt (h : Tallied table) (scope : ScopeId) : Tallied (table.adopt scope).2 := by
  have hfiled : (table.adopt scope).2.filed = table.filed := by
    simp [filed, ScopeTable.adopt]
  rw [Tallied, hfiled]
  exact h

/-- A declaration of a new name keeps each symbol under one name. -/
theorem Tallied.declare {scope : ScopeId} {token : Token} (h : Tallied table)
    (hscope : scope < table.scopes.size) (hnew : table.lookupLocal? scope token.lexeme = none)
    (type : VarType) : Tallied (table.declare scope type token).2 := by
  have hget : table.scopes[scope]? = some table.scopes[scope] := Array.getElem?_eq_getElem hscope
  rw [lookupLocal?, ScopeTable.names, hget] at hnew
  have hfiled : (table.declare scope type token).2.filed.Perm
      (table.symbols.size :: table.filed) := by
    rw [filed, ScopeTable.declare, Array.toList_modify]
    refine flatMap_modify_perm (a := table.scopes[scope]) ?_ ?_
    · rw [Array.getElem?_toList, hget]
    · exact (Names.insert_perm _ hnew).map Prod.snd
  rw [Tallied, ScopeTable.declare, Array.size_push, List.range_succ]
  exact (hfiled.trans (h.cons _)).trans (List.perm_append_singleton _ _).symm

/-- Changes of marks keep each symbol under one name. -/
theorem Tallied.remarked (h : Tallied table) (k : Remarked table next) : Tallied next := by
  have hsize : next.symbols.size = table.symbols.size := by
    have hlength := congrArg List.length k.declared
    simpa [declared] using hlength
  rw [Tallied, filed, k.scopes, hsize]
  exact h

/-- All scopes are walked through once. -/
theorem walk_perm (table : ScopeTable) : table.walk.Perm (List.range table.scopes.size) :=
  List.mergeSort_perm _ _

/-- Going through the numbers of the scopes is going through the scopes. -/
theorem flatMap_names {β : Type} (table : ScopeTable) (f : Names → List β) :
    (List.range table.scopes.size).flatMap (fun scope ↦ f (table.names scope)) =
      table.scopes.toList.flatMap fun s ↦ f s.names := by
  have hnames : (List.range table.scopes.size).map table.names =
      table.scopes.toList.map Scope.names := by
    apply List.ext_getElem
    · simp
    · intro i hi hj
      have hlt : i < table.scopes.size := by simpa using hi
      simp [ScopeTable.names, hlt]
  have hflat := congrArg (List.flatMap f) hnames
  rwa [List.flatMap_map, List.flatMap_map] at hflat

/-- Looking up all numbers in order gives all symbols. -/
theorem filterMap_symbols (table : ScopeTable) :
    (List.range table.symbols.size).filterMap (table.symbols[·]?) = table.symbols.toList := by
  have hsome : (List.range table.symbols.size).map (table.symbols[·]?) =
      table.symbols.toList.map some := by
    apply List.ext_getElem
    · simp
    · intro i hi hj
      have hlt : i < table.symbols.size := by simpa using hi
      simp [hlt]
  have hflat := congrArg (List.filterMap id) hsome
  rw [List.filterMap_map, List.filterMap_map] at hflat
  exact hflat.trans List.filterMap_some

/-- The listing has every symbol once. -/
theorem Tallied.listed_perm (h : Tallied table) : table.listed.Perm table.symbols.toList := by
  have hlisted : (List.range table.scopes.size).flatMap (fun scope ↦
      (table.names scope).filterMap fun entry ↦ table.symbols[entry.2]?) =
      table.filed.filterMap (table.symbols[·]?) := by
    rw [flatMap_names table fun names ↦ names.filterMap fun entry ↦ table.symbols[entry.2]?, filed,
      List.filterMap_flatMap]
    simp only [List.filterMap_map]
    rfl
  have hfiled := h.filterMap (table.symbols[·]?)
  rw [filterMap_symbols, ← hlisted] at hfiled
  exact (table.walk_perm.flatMap_right _).trans hfiled

end ScopeTable

end OnePage
