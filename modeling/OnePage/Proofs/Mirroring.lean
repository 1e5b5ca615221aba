import Mathlib.Data.List.Pairwise
import OnePage.Proofs.Printing

/-!
# Machines that mirror a program

A machine mirrors the state of a program when it has printed the same, the slot of each variable in
scope holds the variable's value, and the zero slot holds zero. Declarations, assignments and print
statements lead from such a machine to one that mirrors the state after them.
-/

namespace OnePage

open Instruction Drafting Interpreter

/-- A declaration gives its variable the next slot and leaves the zero slot as it is. -/
theorem Stmt.homes_declare {table : ScopeTable} {symbol : SymbolId} {d next : Draft}
    (hd : d.WellFormed) (h : (declareVariable table symbol).run d = .ok () next) :
    next.homes = (symbol, d.slots.size) :: d.homes ∧ next.zero = d.zero := by
  obtain ⟨text, hrun⟩ := run_declareVariable table symbol d
  rw [hrun] at h
  cases h
  have hfirst := valuePiece_firstLoaded ((Piece.declared hd symbol).sound.addLine
    (.note .verbose text)) (table.typeOf symbol)
  exact ⟨hfirst.homes_eq, hfirst.zero_eq⟩

private theorem homes_compared (d : Draft) : (compared d).homes = d.homes := by
  unfold compared withZero
  cases d.zero <;> rfl

mutual

/-- Drafting a well-typed statement gives each of its variables one slot. -/
theorem StmtTyped.homes {table : ScopeTable} {names later : Bindings} {n last : Nat}
    {t : Tree Resolved} (h : StmtTyped table.typeOf names n t later last) {d next : Draft}
    (hd : d.WellFormed) (hrun : (Stmt.draft table (Stmt.ofTree t)).run d = .ok () next)
    (hn : Numbered n (d.homes.map Prod.fst)) : Numbered last (next.homes.map Prod.fst) := by
  cases h with
  | declare _ _ =>
    rw [(Stmt.homes_declare hd hrun).1]
    exact hn.cons
  | assign _ _ =>
    rw [(Stmt.builds_assign table _ _ d next hd hrun).homes_eq]
    exact hn
  | print _ =>
    rw [(Stmt.builds_printValue table _ d next hd hrun).homes_eq]
    exact hn
  | ifThen _ hbody =>
    obtain ⟨tested, ended, text, hcond, hdraft, rfl⟩ := Stmt.ifThen_drafts hrun
    have htested := Expr.builds_condition table _ d tested hd hcond
    have hbranched : (branched tested).WellFormed := htested.sound.addJump.addLine _
    rw [← htested.homes_eq] at hn
    have hended := StmtTyped.homes hbody hbranched hdraft hn
    exact hended
  | whileDo _ hbody =>
    obtain ⟨tested, ended, goes, lands, hcond, hdraft, rfl⟩ := Stmt.whileDo_drafts hrun
    have htested := Expr.builds_condition table _ d tested hd hcond
    have hbranched : (branched tested).WellFormed := htested.sound.addJump.addLine _
    rw [← htested.homes_eq] at hn
    have hended := StmtTyped.homes hbody hbranched hdraft hn
    rw [← homes_compared] at hended
    exact hended
  | block hbody => exact StmtsTyped.homes hbody hd hrun hn

private theorem StmtsTyped.homes {table : ScopeTable} {names later : Bindings} {n last : Nat}
    {ts : Forest Resolved} (h : StmtsTyped table.typeOf names n ts later last) {d next : Draft}
    (hd : d.WellFormed) (hrun : (Stmt.draftAll table (Stmt.ofTrees ts)).run d = .ok () next)
    (hn : Numbered n (d.homes.map Prod.fst)) : Numbered last (next.homes.map Prod.fst) := by
  cases h with
  | nil =>
    cases hrun
    exact hn
  | cons ht hts =>
    obtain ⟨mid, hmid, hrest⟩ := Stmt.draftAll_cons_eq_ok.mp hrun
    have hnumbered := StmtTyped.homes ht hd hmid hn
    exact StmtsTyped.homes hts (Stmt.adds_draft table _ d mid hd hmid).sound hrest hnumbered

end

/-- Assigning to a name in scope changes the value of its variable and no other. -/
theorem Interpreter.assign_forall₂ {R Q : String × SymbolId → String × Datum → Prop}
    {names : Bindings} {env : Env} {name : String} {symbol : SymbolId} {v : Datum}
    (h : List.Forall₂ R names env) (hnames : ∀ n x, R n x → x.1 = n.1)
    (hl : names.lookup name = some symbol) (hnodup : (names.map Prod.snd).Nodup)
    (hnew : ∀ n x, n.2 = symbol → R n x → Q n (x.1, v))
    (hold : ∀ n ∈ names, ∀ x, n.2 ≠ symbol → R n x → Q n x) :
    ∃ env', assign name v env = some env' ∧ List.Forall₂ Q names env' := by
  induction h with
  | nil => cases hl
  | @cons n x names env hx hrest ih =>
    rw [List.map_cons, List.nodup_cons] at hnodup
    by_cases he : n.1 = name
    · have hsymbol : n.2 = symbol := by
        rw [List.lookup_cons, ← he] at hl
        simpa using hl
      refine ⟨(x.1, v) :: env, ?_, .cons (hnew n x hsymbol hx) ?_⟩
      · rw [assign, if_pos ((hnames n x hx).trans he)]
      · -- The other names stand for other symbols, so their variables keep their values.
        obtain ⟨hlength, hbound⟩ := List.forall₂_iff_zip.mp hrest
        refine List.forall₂_iff_zip.mpr ⟨hlength, fun {k y} hmem ↦ ?_⟩
        have hk := (List.of_mem_zip hmem).1
        refine hold k (List.mem_cons_of_mem _ hk) y (fun hks ↦ hnodup.1 ?_) (hbound hmem)
        rw [hsymbol, ← hks]
        exact List.mem_map_of_mem hk
    · have hl' : names.lookup name = some symbol := by
        rw [List.lookup_cons, beq_false_of_ne (Ne.symm he)] at hl
        exact hl
      have hne : n.2 ≠ symbol := by
        rintro rfl
        exact hnodup.1 (List.mem_map.mpr ⟨_, mem_of_lookup hl', rfl⟩)
      obtain ⟨env', henv, hforall⟩ := ih hl' hnodup.2
        fun k hk ↦ hold k (List.mem_cons_of_mem _ hk)
      refine ⟨x :: env', ?_, .cons (hold n (List.mem_cons_self ..) x hne hx) hforall⟩
      rw [assign, if_neg (by rw [hnames n x hx]; exact he), henv]
      rfl

/-- A program that was built and in which no variable is declared twice. -/
structure Housed extends Built where
  distinct : (whole.homes.map Prod.fst).Nodup

namespace Housed

open Built

variable (b : Housed)

/-- The slot of a variable. -/
def home (symbol : SymbolId) : Nat := (b.whole.homes.lookup symbol).getD 0

/-- The variable is that of the name, and its value is in the slot of the symbol. -/
def Binds (types : SymbolId → VarType) (m : Machine) (n : String × SymbolId)
    (x : String × Datum) : Prop :=
  (x.1 = n.1 ∧ x.2.type = types n.2) ∧ b.Represents x.2 (b.slot m (b.home n.2))

/-- The machine has printed the same as the program, and has the values of its variables. -/
structure Mirrors (types : SymbolId → VarType) (names : Bindings) (s : State) (m : Machine) :
    Prop where
  output : m.output = s.output
  bound : List.Forall₂ (b.Binds types m) names s.env
  zero : ∀ z, b.whole.zero = some z → b.slot m z = 0

variable {b} {d next : Draft} {m last : Machine} {names : Bindings} {s : State}
  {types : SymbolId → VarType}

/-- A variable that has a slot on the way has that slot. -/
theorem home_eq (hl : d.Leads b.whole) {symbol : SymbolId} {slot : Nat}
    (h : d.homes.lookup symbol = some slot) : b.home symbol = slot := by
  obtain ⟨new, hnew⟩ := hl.homes
  have hmem : symbol ∈ d.homes.map Prod.fst := List.mem_map_of_mem (mem_of_lookup h)
  -- No variable is declared twice, so what is added later does not hide the slot.
  have hdistinct := b.distinct
  rw [← hnew, List.map_append, List.nodup_append] at hdistinct
  have hnone : new.lookup symbol = none := by
    rw [List.lookup_eq_none_iff]
    intro v hv
    have hne := hdistinct.2.2 v.1 (List.mem_map_of_mem hv) symbol hmem
    simpa using Ne.symm hne
  rw [home, ← hnew, List.lookup_append, hnone, h]
  rfl

/-- The slots of variables in scope were taken before. -/
theorem home_lt (hd : d.WellFormed) (hl : d.Leads b.whole) {symbol : SymbolId}
    (h : Slotted d.homes symbol) : b.home symbol < d.slots.size := by
  obtain ⟨slot, hslot⟩ := h
  rw [home_eq hl hslot]
  exact hd.lookup_lt hslot

private theorem home_mem (hl : d.Leads b.whole) {symbol : SymbolId} (h : Slotted d.homes symbol) :
    (symbol, b.home symbol) ∈ b.whole.homes := by
  obtain ⟨slot, hslot⟩ := h
  rw [home_eq hl hslot]
  exact hl.homes.subset (mem_of_lookup hslot)

/-- Different variables have different slots. -/
theorem home_ne (hl : d.Leads b.whole) {symbol other : SymbolId} (h : Slotted d.homes symbol)
    (k : Slotted d.homes other) (hne : symbol ≠ other) : b.home symbol ≠ b.home other := by
  have hsymm : Std.Symm fun v w : SymbolId × Nat ↦ v.2 ≠ w.2 := ⟨fun _ _ he ↦ he.symm⟩
  exact b.sound.homes_ne.forall (home_mem hl h) (home_mem hl k) fun he ↦ hne (congrArg Prod.fst he)

/-- The zero slot was taken before, or will be later. -/
theorem zero_out (hd : d.WellFormed) (hzero : next.zero = d.zero) (hl : next.Leads b.whole)
    {z : Nat} (hz : b.whole.zero = some z) : z < d.slots.size ∨ next.slots.size ≤ z := by
  rcases hl.zeroLater z hz with hn | hle
  · exact .inl (hd.zero_lt z (hzero ▸ hn))
  · exact .inr hle

namespace Mirrors

/-- The variables of a program that the machine mirrors have values of their types. -/
theorem fits (h : b.Mirrors types names s m) : Fits types names s.env :=
  h.bound.imp fun _ _ hx ↦ hx.1

/-- A machine that mirrors a program has the values of its variables in their slots. -/
theorem stores (h : b.Mirrors types names s m) (hl : d.Leads b.whole) :
    b.Stores (b.Valued (Bound names s.env)) d.homes m := by
  rintro symbol slot hlookup v ⟨⟨n, x⟩, hmem, rfl, rfl⟩
  have hx := (List.forall₂_iff_zip.mp h.bound).2 hmem
  rw [← home_eq hl hlookup]
  exact hx.2

/-- Code that only writes new slots and does not touch the zero slot keeps the variables. -/
theorem kept (h : b.Mirrors types names s m) (hd : d.WellFormed) (hdl : d.Leads b.whole)
    (hl : next.Leads b.whole) (hzero : next.zero = d.zero)
    (hk : ∀ n ∈ names, Slotted d.homes n.2) (hr : b.Crosses d next m last) :
    b.Mirrors types names { s with output := last.output } last where
  output := rfl
  bound := by
    obtain ⟨hlength, hbound⟩ := List.forall₂_iff_zip.mp h.bound
    refine List.forall₂_iff_zip.mpr ⟨hlength, fun hmem ↦ ⟨(hbound hmem).1, ?_⟩⟩
    have hlt := home_lt hd hdl (hk _ (List.of_mem_zip hmem).1)
    rw [hr.kept _ (Nat.lt_of_lt_of_le hlt hdl.slots) (.inl hlt)]
    exact (hbound hmem).2
  zero z hz := by
    rw [hr.kept z (b.sound.zero_lt z hz) (zero_out hd hzero hl hz)]
    exact h.zero z hz

end Mirrors

variable (b) in
/-- The machine attains what a statement ends with, where a draft ends; it goes on for long if a
loop of the statement does. -/
def Attains (types : SymbolId → VarType) (rounds : Nat) (next : Draft) (names : Bindings)
    (m : Machine) : Result → Prop
  | .done s => ∃ n last, Machine.Runs n m last ∧ b.At next last ∧ b.Mirrors types names s last
  | .unfinished => ∃ n last, Machine.Runs n m last ∧ rounds ≤ n
  | .stuck => False

/-- The first value of a variable is loaded. -/
theorem firstLoaded_runs {type : VarType} {v : Datum} (hv : Datum.first? type = some v)
    (hl : (Stmt.firstLoaded type d).Leads b.whole) (hat : b.At d m) :
    ∃ last, b.Moves d (Stmt.firstLoaded type d) m last ∧ b.Represents v last.a := by
  cases type with
  | int | boolean =>
    cases hv
    exact ⟨_, hat.emit hl rfl, rfl⟩
  | string =>
    cases hv
    have hplace := hl.of_addLine
    have hskip : b.Moves d (d.addLine (.place "")) m m := hat.skip (by simp) (Nat.le_refl _)
    exact ⟨_, hskip.trans (hskip.arrives.emit hl rfl), rfl, placed hplace, by simp⟩
  | none => cases hv

variable {table : ScopeTable}

/-- A declaration stores the variable's first value in its new slot. -/
theorem declare_attains {n : SymbolId} {type name : Mark} {v : Datum}
    (hv : Datum.first? (.ofKeyword type.lexeme) = some v)
    (htype : table.typeOf n = .ofKeyword type.lexeme) (hd : d.WellFormed)
    (hrun : (Stmt.declareVariable table n).run d = .ok () next) (hl : next.Leads b.whole)
    (hk : ∀ n ∈ names, Slotted d.homes n.2) (hat : b.At d m)
    (hm : b.Mirrors table.typeOf names s m) (rounds : Nat) :
    b.Attains table.typeOf rounds next ((name.lexeme, n) :: names) m
      (declare s { node := .leaf (type.token .typeWord) }
        { node := .leaf (name.token .identifier), symbol := some n }) := by
  have hdone : declare s { node := .leaf (type.token .typeWord) }
      { node := .leaf (name.token .identifier), symbol := some n } =
        .done { s with env := (name.lexeme, v) :: s.env } := by
    simp only [declare, Mark.token, hv]
  have hdl := (Stmt.adds_declareVariable table n d next hd hrun).grows.leads hl
  obtain ⟨hhomes, hzero⟩ := Stmt.homes_declare hd hrun
  obtain ⟨text, hdraft⟩ := Stmt.run_declareVariable table n d
  rw [hdraft] at hrun
  cases hrun
  have hskip : b.Moves d ((Stmt.declared n d).addLine (.note .verbose text)) m m :=
    hat.skip (by rw [Draft.code_addLine_note]; rfl)
      (by simp [Stmt.declared, Draft.addLine, Draft.addSlot])
  obtain ⟨m₁, hfirst, hvalue⟩ := firstLoaded_runs (htype ▸ hv)
    hl.of_addLine hskip.arrives
  have hlt : d.slots.size < _ := Nat.lt_of_lt_of_le
    (by simp [Stmt.declared, Draft.addLine, Draft.addSlot]) hfirst.slots
  have hstore := (hskip.trans hfirst).store hl (Nat.le_refl _) hlt
  have hkept := hm.kept hd hdl hl hzero hk hstore.toCrosses
  have hwhole : d.slots.size < b.whole.slots.size := Nat.lt_of_lt_of_le hlt hl.slots
  have hhome : b.home n = d.slots.size :=
    home_eq hl (by rw [hhomes]; exact List.lookup_cons_self)
  obtain ⟨k, hruns⟩ := hstore.runs
  rw [hdone]
  refine ⟨k, _, hruns, hstore.arrives, hstore.output.trans hm.output,
    .cons ⟨⟨rfl, ?_⟩, ?_⟩ hkept.bound, hkept.zero⟩
  · rw [Datum.type_first? hv, htype]
  · rw [hhome, slot_after_sta hwhole _ hwhole, if_pos rfl]
    exact hvalue

/-- Storing a value in the slot of a variable assigns it to the variable. -/
theorem Mirrors.assigned {mid : Draft} {name : String} {symbol : SymbolId} {slot : Nat}
    {v : Datum} (h : b.Mirrors types names s m) (hl : d.Leads b.whole) (hd : d.WellFormed)
    (hk : ∀ n ∈ names, Slotted d.homes n.2) (hnodup : (names.map Prod.snd).Nodup)
    (hlookup : names.lookup name = some symbol) (hslot : d.homes.lookup symbol = some slot)
    (htype : v.type = types symbol) (hv : b.Represents v m.a) :
    ∃ env, assign name v s.env = some env ∧
      b.Mirrors types names { s with env } (b.after mid (.sta slot) m) := by
  have hhome : b.home symbol = slot := home_eq hl hslot
  have hwhole : slot < b.whole.slots.size := Nat.lt_of_lt_of_le (hd.lookup_lt hslot) hl.slots
  have hnew (n : String × SymbolId) (x : String × Datum) (hn : n.2 = symbol)
      (hx : b.Binds types m n x) : b.Binds types (b.after mid (.sta slot) m) n (x.1, v) := by
    refine ⟨⟨hx.1.1, by rw [hn, htype]⟩, ?_⟩
    rw [hn, hhome, slot_after_sta hwhole _ hwhole, if_pos rfl]
    exact hv
  have hold (n : String × SymbolId) (hmem : n ∈ names) (x : String × Datum) (hn : n.2 ≠ symbol)
      (hx : b.Binds types m n x) : b.Binds types (b.after mid (.sta slot) m) n x := by
    have hlt := Nat.lt_of_lt_of_le (home_lt hd hl (hk n hmem)) hl.slots
    refine ⟨hx.1, ?_⟩
    rw [slot_after_sta hwhole _ hlt,
      if_neg (hhome ▸ home_ne hl (hk n hmem) ⟨slot, hslot⟩ hn)]
    exact hx.2
  obtain ⟨env, hassign, hbound⟩ :=
    assign_forall₂ h.bound (fun _ _ hx ↦ hx.1.1) hlookup hnodup hnew hold
  refine ⟨env, hassign, h.output, hbound, fun z hz ↦ ?_⟩
  have hne : z ≠ slot := by
    rw [← hhome]
    exact (b.sound.zero_ne z hz _ (home_mem hl ⟨slot, hslot⟩)).symm
  rw [slot_after_sta hwhole z (b.sound.zero_lt z hz), if_neg hne]
  exact h.zero z hz

/-- An assignment stores the value of its expression in the slot of its variable. -/
theorem assign_attains {name : Mark} {symbol : SymbolId} {value : Tree Resolved}
    (hlookup : names.lookup name.lexeme = some symbol)
    (hvalue : ExprTyped table.typeOf names value (table.typeOf symbol))
    (hnodup : (names.map Prod.snd).Nodup) (hd : d.WellFormed)
    (hrun : (Stmt.draft table (.assign symbol (.ofTree value))).run d = .ok () next)
    (hl : next.Leads b.whole) (hk : ∀ n ∈ names, Slotted d.homes n.2) (hat : b.At d m)
    (hm : b.Mirrors table.typeOf names s m) (rounds : Nat) :
    b.Attains table.typeOf rounds next names m
      (store s { node := .leaf (name.token .identifier), symbol := some symbol } value) := by
  obtain ⟨v, heval, htype, hmeans⟩ := hvalue.means hm.fits
  obtain ⟨slot, mid, hslot, hload, rfl⟩ := Stmt.assign_eq_ok.mp hrun
  have hmid := Expr.builds_load table _ d mid hd hload
  have hlmid := hl.of_addLine
  have hdl := hmid.grows.leads hlmid
  obtain ⟨m₁, hmoves, hloaded⟩ :=
    loads_of_means table hmeans d mid m hd hload hlmid hat (hm.stores hdl)
  have hkept := hm.kept hd hdl hlmid hmid.zero_eq hk hmoves.toCrosses
  rw [hmoves.output, hm.output] at hkept
  obtain ⟨env, hassign, hmirrors⟩ :=
    hkept.assigned hdl hd hk hnodup hlookup hslot htype hloaded
  have hdone : store s { node := .leaf (name.token .identifier), symbol := some symbol } value =
      .done { s with env } := by
    simp only [store, heval, Mark.token]
    rw [hassign]
  obtain ⟨k, hruns⟩ := hmoves.runs
  have hwhole := Nat.lt_of_lt_of_le (hd.lookup_lt hslot) hdl.slots
  obtain ⟨hstep, harrives⟩ := hmoves.arrives.store hl hwhole
  rw [hdone]
  exact ⟨k + 1, _, hruns.trans hstep, harrives, hmirrors⟩

/-- A print statement prints the value of its expression. -/
theorem print_attains {value : Tree Resolved} {type : VarType}
    (hvalue : ExprTyped table.typeOf names value type) (hd : d.WellFormed)
    (hrun : (Stmt.draft table (.print (.ofTree value))).run d = .ok () next)
    (hl : next.Leads b.whole) (hk : ∀ n ∈ names, Slotted d.homes n.2) (hat : b.At d m)
    (hm : b.Mirrors table.typeOf names s m) (rounds : Nat) :
    b.Attains table.typeOf rounds next names m (Interpreter.print s value) := by
  have hprint := Stmt.builds_printValue table _ d next hd hrun
  have hdl := hprint.grows.leads hl
  obtain ⟨v, heval, htype, hmeans⟩ := hvalue.means hm.fits
  obtain ⟨last, hcrosses, houtput⟩ := printValue_runs hmeans
    (fun _ _ hvar ↦ htype.trans (hvalue.type_of_var hvar)) hd hrun hl hat (hm.stores hdl)
  have hdone : Interpreter.print s value = .done { s with output := s.output ++ v.shown } := by
    simp only [Interpreter.print, heval]
  obtain ⟨k, hruns⟩ := hcrosses.runs
  have hkept := hm.kept hd hdl hl hprint.zero_eq hk hcrosses
  rw [houtput, hm.output] at hkept
  rw [hdone]
  exact ⟨k, last, hruns, hcrosses.arrives, hkept⟩

end Housed

end OnePage
