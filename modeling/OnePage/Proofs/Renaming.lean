import Mathlib.Logic.Equiv.Basic
import OnePage.Proofs.Renaming.Drafting

/-!
# Names and layout do not matter

The executable of a program depends neither on the names of its variables nor on where its tokens
stand: tokens with other places, whose names are changed one to one, give the same executable, or
fail in the same stage for the same reason.
-/

namespace OnePage

/-! ### Assembling drafts that differ in remarks -/

/-- The assemblies have the same cells and texts, whatever they said. -/
structure Assembly.Alike (s t : Assembly) : Prop where
  image : t.image = s.image
  texts : t.texts = s.texts

/-- Two steps of assemblies go the same way. -/
def Assembling.Alike {α β : Type} (V : α → β → Prop) (x : Assembling α) (y : Assembling β) : Prop :=
  StepsAlike Assembly.Alike (fun e f : CodeError ↦ e.bare = f.bare) V x y

namespace Assembly

private theorem alike_say (profile : Profile) (text other : String) :
    Assembling.Alike Eq (say profile text) (say profile other) :=
  StepsAlike.modify fun _ _ h ↦ ⟨h.image, h.texts⟩

private theorem alike_intern (text : String) : Assembling.Alike Eq (intern text) (intern text) := by
  refine StepsAlike.get.bind fun s t hs ↦ ?_
  rw [hs.texts, hs.image]
  split
  · exact StepsAlike.pure rfl
  · split
    · exact StepsAlike.throw rfl
    · exact (StepsAlike.set ⟨rfl, rfl⟩).next fun _ ↦ (alike_say _ _ _).next fun _ ↦
        StepsAlike.pure rfl

private theorem alike_cellOf (v : Value) : Assembling.Alike Eq (cellOf v) (cellOf v) := by
  cases v with
  | const byte => exact StepsAlike.pure rfl
  | text text => exact (alike_intern text).next fun _ ↦ StepsAlike.pure rfl
  | jump index => exact StepsAlike.pure rfl

private theorem alike_cellsOf (i : Code) : Assembling.Alike Eq (cellsOf i) (cellsOf i) := by
  unfold cellsOf
  split
  · exact StepsAlike.pure rfl
  · exact (alike_cellOf _).next fun _ ↦ StepsAlike.pure rfl
  · exact StepsAlike.pure rfl

private theorem alike_write (cells : List Cell) :
    Assembling.Alike Eq (write cells) (write cells) := by
  refine StepsAlike.get.bind fun s t hs ↦ ?_
  rw [hs.image]
  split
  · exact StepsAlike.throw rfl
  · exact StepsAlike.set ⟨rfl, hs.texts⟩

private theorem alike_code (i : Code) : Assembling.Alike Eq (line (.code i)) (line (.code i)) := by
  refine (alike_cellsOf i).next fun cells ↦ ?_
  dsimp only
  split
  · exact (alike_say _ _ _).next fun _ ↦ alike_write cells
  · exact alike_write cells

private theorem alike_line {l m : Line} (h : m.bare = l.bare) :
    Assembling.Alike Eq (line l) (line m) := by
  cases l with
  | note profile text =>
    cases m with
    | note _ _ =>
      cases h
      exact alike_say _ _ _
    | place _ => cases h
    | code _ => cases h
  | place text =>
    cases m with
    | note _ _ => cases h
    | place _ =>
      cases h
      exact StepsAlike.discard (alike_intern text)
    | code _ => cases h
  | code i =>
    cases m with
    | note _ _ => cases h
    | place _ => cases h
    | code _ =>
      cases h
      exact alike_code i

private theorem alike_lines {ls ms : List Line} (h : ms.map Line.bare = ls.map Line.bare) :
    Assembling.Alike Eq (lines ls) (lines ms) := by
  induction ls generalizing ms with
  | nil =>
    obtain rfl := List.map_eq_nil_iff.mp h
    exact StepsAlike.pure rfl
  | cons l ls ih =>
    obtain ⟨m, ms, rfl, hm, hms⟩ := List.map_eq_cons_iff.mp h
    exact (alike_line hm).next fun _ ↦ ih hms

private theorem alike_forM {α : Type} {f g : α → Assembling PUnit} (xs : List α)
    (h : ∀ a, Assembling.Alike Eq (f a) (g a)) :
    Assembling.Alike Eq (xs.forM f) (xs.forM g) := by
  induction xs with
  | nil => exact StepsAlike.pure rfl
  | cons x xs ih => exact (h x).next fun _ ↦ ih

section Drafts

variable {d e : Draft} (hd : d.Alike e)
include hd

private theorem addresses_alike (codeLen : Nat) : addresses codeLen e = addresses codeLen d := by
  rw [addresses, addresses, hd.slots]

private theorem byteOf_alike (codeLen : Nat) : byteOf codeLen e = byteOf codeLen d := by
  funext cell
  cases cell <;> simp only [byteOf, addresses_alike hd, hd.distances]

private theorem alike_finish (table other : ScopeTable) :
    Assembling.Alike Eq (finish table d) (finish other e) := by
  refine StepsAlike.get.bind fun s t hs ↦ ?_
  dsimp only
  rw [hs.image, hd.slots, byteOf_alike hd]
  refine (alike_say _ _ _).next fun _ ↦ ?_
  split
  · exact StepsAlike.throw rfl
  · unfold saySlots
    rw [hd.slots, addresses_alike hd]
    refine (alike_forM _ fun _ ↦ alike_say _ _ _).next fun _ ↦ ?_
    split
    · exact StepsAlike.throw rfl
    · exact (alike_say _ _ _).next fun _ ↦ (alike_say _ _ _).next fun _ ↦ StepsAlike.pure rfl

end Drafts

/-- The result of an assembly does not depend on what it says. -/
theorem report_alike {x y : Assembling Executable} (h : Assembling.Alike Eq x y) :
    ResultsAlike (fun e f ↦ e.bare = f.bare) Eq (report x).result (report y).result := by
  have hrun := h start start ⟨rfl, rfl⟩
  unfold report
  generalize x.run start = first, y.run start = second at hrun
  cases hrun with
  | ok heq _ => exact .ok heq
  | error he _ => exact .error he

end Assembly

private theorem generate_renamed {R : String → String → Prop} {a b : Analysis} (h : a.Renamed R b) :
    ResultsAlike (fun e f ↦ e.bare = f.bare) Eq (generate a).result (generate b).result := by
  obtain ⟨tree, table⟩ := a
  obtain ⟨tree', table'⟩ := b
  obtain ⟨htree, htypes⟩ := h
  cases htree with
  | nil => exact Assembly.report_alike (StepsAlike.throw rfl)
  | @cons root root' _ _ hroot _ =>
    have hdraft := Stmt.alike_draftProgram htypes (Stmt.ofTree_renamed hroot) {} {}
      ⟨rfl, rfl, rfl, rfl, rfl⟩
    unfold generate
    dsimp only
    generalize ((Stmt.ofTree root).draftProgram table).run {} = first,
      ((Stmt.ofTree root').draftProgram table').run {} = second at hdraft
    cases hdraft with
    | ok _ hd =>
      exact Assembly.report_alike <|
        (Assembly.alike_lines hd.lines).next fun _ ↦ Assembly.alike_finish hd table table'
    | error he hd =>
      exact Assembly.report_alike <|
        (Assembly.alike_lines hd.lines).next fun _ ↦ StepsAlike.throw he

/-! ### All stages -/

/-- The stages after scanning: parse, analyse, generate. -/
def build (tokens : List Token) : Report CompileError Executable :=
  ((parse tokens).mapError .parse).andThen fun program ↦
    ((analyze program).mapError .analysis).andThen fun analysis ↦
      (generate analysis).mapError .code

/-- The error of a stage without the names, texts and places that it cites. -/
def CompileError.bare : CompileError → CompileError
  | scan e => scan e
  | parse e => parse e.bare
  | analysis e => analysis e.bare
  | code e => code e.bare

section Reports

variable {ε δ α β α' β' : Type} {E : ε → ε → Prop} {F : δ → δ → Prop} {V : α → α' → Prop}
  {W : β → β' → Prop}

private theorem ResultsAlike.mapError {r : Report ε α} {s : Report ε α'} {f : ε → δ}
    (h : ResultsAlike E V r.result s.result) (hf : ∀ e e', E e e' → F (f e) (f e')) :
    ResultsAlike F V (r.mapError f).result (s.mapError f).result := by
  unfold Report.mapError
  generalize r.result = first, s.result = second at h
  cases h with
  | ok hv => exact .ok hv
  | error he => exact .error (hf _ _ he)

private theorem ResultsAlike.andThen {r : Report ε α} {s : Report ε α'} {f : α → Report ε β}
    {g : α' → Report ε β'} (h : ResultsAlike E V r.result s.result)
    (hfg : ∀ a b, V a b → ResultsAlike E W (f a).result (g b).result) :
    ResultsAlike E W (r.andThen f).result (s.andThen g).result := by
  unfold Report.andThen
  generalize r.result = first, s.result = second at h
  cases h with
  | ok hv => exact hfg _ _ hv
  | error he => exact .error he

end Reports

private theorem build_alike {R : String → String → Prop} (hR : Relator.BiUnique R)
    {ts us : List Token} (h : List.Forall₂ (Token.Renamed R) ts us) :
    ResultsAlike (fun e f ↦ e.bare = f.bare) Eq (build ts).result (build us).result := by
  refine ResultsAlike.andThen
    ((parse_renamed h).mapError fun e f he ↦ ?_) fun program other hprogram ↦
      ResultsAlike.andThen ((analyze_renamed hR hprogram).mapError fun e f he ↦ ?_) fun a b ha ↦
        (generate_renamed ha).mapError fun e f he ↦ ?_
  · exact congrArg CompileError.parse he
  · exact congrArg CompileError.analysis he
  · exact congrArg CompileError.code he

/-- The tokens differ at most in their places and in the names of identifiers, which are changed as
the function says. -/
structure Token.RenamedBy (rename : String → String) (t u : Token) : Prop where
  kind : u.kind = t.kind
  lexeme : u.lexeme = if t.kind = .identifier then rename t.lexeme else t.lexeme

/-- Tokens whose names are changed one to one, and which may stand anywhere, give the same
executable or the same kind of error. -/
theorem build_of_renamed (rename : String → String) (ts us : List Token)
    (hrenamed : List.Forall₂ (Token.RenamedBy rename) ts us)
    (hinjective : ∀ t ∈ ts, ∀ u ∈ ts, t.kind = .identifier → u.kind = .identifier →
      rename t.lexeme = rename u.lexeme → t.lexeme = u.lexeme) :
    (∃ exe, (build ts).result = .ok exe ∧ (build us).result = .ok exe) ∨
      ∃ e f, (build ts).result = .error e ∧ (build us).result = .error f ∧ e.bare = f.bare := by
  -- Only names that occur correspond, as others may be renamed alike.
  let R (a b : String) : Prop := (∃ t ∈ ts, t.kind = .identifier ∧ t.lexeme = a) ∧ b = rename a
  have hR : Relator.BiUnique R := by
    constructor
    · rintro a c b ⟨⟨t, ht, hkind, rfl⟩, rfl⟩ ⟨⟨u, hu, hkind', rfl⟩, heq⟩
      exact hinjective t ht u hu hkind hkind' heq
    · rintro a b c ⟨-, rfl⟩ ⟨-, rfl⟩
      rfl
  have hall : List.Forall₂ (Token.Renamed R) ts us := by
    have hmem := (List.forall₂_and_left ts us).mpr ⟨fun t ht ↦ ht, hrenamed⟩
    refine hmem.imp fun t u h ↦ ⟨h.2.kind, fun hkind ↦ ?_, fun hkind ↦ ?_⟩
    · exact ⟨⟨t, h.1, hkind, rfl⟩, by rw [h.2.lexeme, if_pos hkind]⟩
    · rw [h.2.lexeme, if_neg hkind]
  have halike := build_alike hR hall
  generalize (build ts).result = first, (build us).result = second at halike
  cases halike with
  | ok heq => exact .inl ⟨_, rfl, congrArg Except.ok heq.symm⟩
  | error he => exact .inr ⟨_, _, rfl, rfl, he⟩

/-- The tokens of a program in which an inner variable hides an outer one of another type. -/
def hidden : List Token :=
  match (Scan.ofSource
    "\x7bint a string b a = 1 \x7bint b b = 2 + a print(b)\x7d print(b)\x7d$").result with
  | .ok tokens => tokens
  | .error _ => []

/-- The same tokens with the two names exchanged and lines taken for columns. -/
def exchanged : List Token :=
  hidden.map fun t ↦
    { t with
      lexeme := if t.kind = .identifier then Equiv.swap "a" "b" t.lexeme else t.lexeme
      position := ⟨t.position.column, t.position.line⟩ }

/-- The exchange of names turns their order around, and the executable stays the same. -/
theorem build_of_renamed_exchanged : hidden ≠ exchanged ∧ (build hidden).result.isOk = true ∧
    ((∃ exe, (build hidden).result = .ok exe ∧ (build exchanged).result = .ok exe) ∨
      ∃ e f, (build hidden).result = .error e ∧ (build exchanged).result = .error f ∧
        e.bare = f.bare) := by
  refine ⟨by decide +kernel, by decide +kernel,
    build_of_renamed (Equiv.swap "a" "b") hidden exchanged ?_ ?_⟩
  · exact List.forall₂_map_right_iff.mpr (List.forall₂_same.mpr fun t _ ↦ ⟨rfl, rfl⟩)
  · intro t _ u _ _ _ heq
    exact (Equiv.swap "a" "b").injective heq

end OnePage
