import OnePage.Proofs.Mirroring

/-!
# Running well-typed statements

The code of a well-typed statement does what the statement means: a machine that mirrors the
program before it comes to mirror the program after it, and where the statement runs out of rounds
the machine takes at least as many steps. The argument follows the typing of the statement; for a
loop it goes by the number of rounds left.
-/

namespace OnePage

open Instruction Drafting Interpreter

namespace Housed

open Built

variable {b : Housed} {types : SymbolId → VarType} {names later : Bindings} {d mid next : Draft}
  {m middle : Machine} {s : State} {r : Result} {rounds n : Nat}

namespace Attains

/-- The steps before a machine follows a statement count too. -/
theorem prepend (hruns : Machine.Runs n m middle) (h : b.Attains types rounds next names middle r) :
    b.Attains types (n + rounds) next names m r := by
  cases r with
  | done s =>
    obtain ⟨k, last, hk, hat, hm⟩ := h
    exact ⟨n + k, last, hruns.trans hk, hat, hm⟩
  | unfinished =>
    obtain ⟨k, last, hk, hle⟩ := h
    exact ⟨n + k, last, hruns.trans hk, Nat.add_le_add_left hle n⟩
  | stuck => exact h

private theorem mono (h : b.Attains types rounds next names m r) (hle : n ≤ rounds) :
    b.Attains types n next names m r := by
  cases r with
  | done s => exact h
  | unfinished =>
    obtain ⟨k, last, hk, hrounds⟩ := h
    exact ⟨k, last, hk, Nat.le_trans hle hrounds⟩
  | stuck => exact h

/-- What follows a statement and then what comes after it follows both. -/
theorem andThen {f : State → Result} (h : b.Attains types rounds mid names m r)
    (k : ∀ s middle, b.At mid middle → b.Mirrors types names s middle →
      b.Attains types rounds next later middle (f s)) :
    b.Attains types rounds next later m (r.andThen f) := by
  cases r with
  | done s =>
    obtain ⟨n, last, hruns, hat, hm⟩ := h
    exact (prepend hruns (k s last hat hm)).mono (Nat.le_add_left _ _)
  | unfinished => exact h
  | stuck => exact h.elim

/-- Where a draft ends is where another with the same code does. -/
theorem congr (h : b.Attains types rounds mid names m r) (hcode : next.code = mid.code) :
    b.Attains types rounds next names m r := by
  cases r with
  | done s =>
    obtain ⟨n, last, hruns, hat, hm⟩ := h
    exact ⟨n, last, hruns, ⟨hat.carries, by rw [hcode, hat.pc]⟩, hm⟩
  | unfinished | stuck => exact h

end Attains

/-- Only memory and output matter to what a machine mirrors. -/
theorem Mirrors.congr {last : Machine} (h : b.Mirrors types names s m)
    (hmemory : last.memory = m.memory) (houtput : last.output = m.output) :
    b.Mirrors types names s last where
  output := houtput.trans h.output
  bound := h.bound.imp fun n x hx ↦ ⟨hx.1, by rw [slot, hmemory]; exact hx.2⟩
  zero z hz := by
    rw [slot, hmemory]
    exact h.zero z hz

/-- Forgetting what a block declared leaves the variables outside it. -/
theorem Mirrors.leave {inner : Bindings} {outer : Env} (h : b.Mirrors types inner s m)
    (hsuffix : names <:+ inner) (hlength : names.length = outer.length) :
    b.Mirrors types names (leave outer s) m where
  output := h.output
  bound := by
    have hdrop := List.forall₂_drop (inner.length - names.length) h.bound
    rw [← List.suffix_iff_eq_drop.mp hsuffix] at hdrop
    rw [Interpreter.leave, ← hlength, ← h.bound.length_eq]
    exact hdrop
  zero := h.zero

/-- A branch to where a draft ends leaves what the machine mirrors. -/
theorem branch_to {v : Value} (hat : b.At d m) (hm : b.Mirrors types names s m)
    (hl : (d.addLine (.code (.bne v))).Leads b.whole)
    (hpc : (b.after d (.bne v) m).pc = UInt8.ofNat (size next.code)) :
    ∃ last, Machine.Runs 1 m last ∧ b.At next last ∧ b.Mirrors types names s last := by
  obtain ⟨hruns, hnext⟩ := hat.branch hl hpc
  exact ⟨_, hruns, hnext, hm.congr (by rw [after_bne]) (by rw [after_bne])⟩

variable {table : ScopeTable} {condition body : Tree Resolved}

/-- The code of a condition finds out whether it holds. -/
theorem test_runs {tested : Draft} (hcond : ExprTyped table.typeOf names condition .boolean)
    (hd : d.WellFormed)
    (hrun : ((Expr.ofTree condition).condition table).run d = .ok () tested)
    (hl : tested.Leads b.whole) (hk : ∀ n ∈ names, Slotted d.homes n.2) (hat : b.At d m)
    (hm : b.Mirrors table.typeOf names s m) :
    ∃ x n last, eval s.env condition = some (.flag x) ∧ Machine.Runs n m last ∧
      b.At tested last ∧ last.zero = x ∧ b.Mirrors table.typeOf names s last := by
  have htested := Expr.builds_condition table _ d tested hd hrun
  have hdl := htested.grows.leads hl
  obtain ⟨v, heval, htype, hmeans⟩ := hcond.means hm.fits
  cases v with
  | int _ | text _ => cases htype
  | flag x =>
    obtain ⟨last, hmoves, hzero⟩ := condition_runs hmeans hd hrun hl hat (hm.stores hdl)
    have hkept := hm.kept hd hdl hl htested.zero_eq hk hmoves.toCrosses
    rw [hmoves.output, hm.output] at hkept
    obtain ⟨n, hn⟩ := hmoves.runs
    exact ⟨x, n, last, heval, hn, hmoves.arrives, hzero, hkept⟩

/-- A branch into the code behind it is one that is not taken. -/
theorem enter_runs {tested : Draft} (hat : b.At tested m) (hm : b.Mirrors types names s m)
    (hl : (branched tested).Leads b.whole) (hz : m.zero = true) :
    ∃ last, Machine.Runs 1 m last ∧ b.At (branched tested) last ∧
      b.Mirrors types names s last :=
  branch_to (⟨hat.carries, hat.pc⟩ : b.At tested.addJump m) hm hl (pc_after_bne_true _ _ hz)

/-- A branch that is taken goes to where it lands. -/
theorem over_runs {tested ended : Draft} {text : String} (hended : (branched tested).Extends ended)
    (hat : b.At tested m) (hm : b.Mirrors types names s m)
    (hl : (ended.landed text tested.distances.size
      (UInt8.ofNat (ended.codeSize - (branched tested).codeSize))).Leads b.whole)
    (hz : m.zero = false) :
    ∃ last, Machine.Runs 1 m last ∧ b.At ended last ∧ b.Mirrors types names s last := by
  have hlended := hl.of_landed (distances_open hended)
  have hdistance := b.linked.distances _ _ (hl.landed _ _ (distances_landed hended _ _))
  refine branch_to (⟨hat.carries, hat.pc⟩ : b.At tested.addJump m) hm (hended.leads hlended) ?_
  rw [pc_after_bne_false _ _ hz]
  change UInt8.ofNat (size (branched tested).code) + b.layout.distance tested.distances.size = _
  rw [hdistance, ← Draft.codeSize_eq, ← Draft.codeSize_eq]
  exact Stmt.ofNat_add_distance (hended.codeSize_le)

variable (b) in
/-- Every machine that mirrors the program before a statement follows it. -/
def Simulates (table : ScopeTable) (names : Bindings) (t : Tree Resolved) (later : Bindings)
    (rounds : Nat) : Prop :=
  ∀ d next m s, d.WellFormed → (Stmt.draft table (Stmt.ofTree t)).run d = .ok () next →
    next.Leads b.whole → (∀ n ∈ names, Slotted d.homes n.2) → b.At d m →
      b.Mirrors table.typeOf names s m →
        b.Attains table.typeOf rounds next later m (exec rounds t s)

/-- What has a slot before a body has one where the body starts. -/
theorem slotted_branched {tested : Draft} (hk : ∀ n ∈ names, Slotted d.homes n.2)
    (htested : ValuePiece d tested) : ∀ n ∈ names, Slotted (branched tested).homes n.2 :=
  fun n hn ↦ (hk n hn).extend (htested.grows.trans (extends_branched tested))

/-- A conditional statement is followed if its body is. -/
theorem simulates_ifThen (hcond : ExprTyped table.typeOf names condition .boolean)
    (hbody : b.Simulates table names body names rounds) :
    b.Simulates table names (.node { node := .branch .ifStatement } [condition, body]) names
      rounds := by
  intro d next m s hd hrun hl hk hat hm
  obtain ⟨tested, ended, text, htest, hdraft, rfl⟩ := Stmt.ifThen_drafts hrun
  have htested := Expr.builds_condition table _ d tested hd htest
  have hbranched : (branched tested).WellFormed := htested.sound.addJump.addLine _
  have hended := Stmt.adds_draft table _ _ ended hbranched hdraft
  have hlended := hl.of_landed (distances_open hended.grows)
  have hlbranched := hended.grows.leads hlended
  obtain ⟨x, n, m₁, heval, hruns, hat₁, hzero, hm₁⟩ :=
    test_runs hcond hd htest ((extends_branched tested).leads hlbranched) hk hat hm
  change b.Attains _ _ _ _ _ (branch condition (exec rounds body) s)
  rw [branch, heval]
  refine Attains.congr ?_ (code_landed ended text _ _)
  cases x with
  | true =>
    obtain ⟨m₂, hstep, hat₂, hm₂⟩ := enter_runs hat₁ hm₁ hlbranched hzero
    have hattains := hbody _ ended m₂ s hbranched hdraft hlended (slotted_branched hk htested)
      hat₂ hm₂
    exact (hattains.prepend (hruns.trans hstep)).mono (Nat.le_add_left _ _)
  | false =>
    obtain ⟨m₂, hstep, hat₂, hm₂⟩ := over_runs hended.grows hat₁ hm₁ hl hzero
    exact ⟨n + 1, m₂, hruns.trans hstep, hat₂, hm₂⟩

/-- The comparison at the end of a loop finds a difference: one is not what the zero slot holds. -/
theorem compared_runs {ended : Draft} (hended : ended.WellFormed) (hat : b.At ended m)
    (hm : b.Mirrors types names s m) (hl : (compared ended).Leads b.whole) :
    ∃ n last, Machine.Runs n m last ∧ b.At (compared ended) last ∧ last.zero = false ∧
      b.Mirrors types names s last := by
  have hslot : b.slot m (ended.zero.getD ended.slots.size) = 0 :=
    hm.zero _ (hl.zero _ (zero_withZero ended))
  have hskip : b.Moves ended (withZero ended) m m :=
    hat.skip (code_withZero ended) (Piece.withZero hended).grows.slots
  have hone := hskip.trans (hskip.arrives.emit hl.of_addLine rfl)
  have hcompare := hone.trans (hone.arrives.emit hl rfl)
  obtain ⟨n, hruns⟩ := hcompare.runs
  refine ⟨n, _, hruns, hcompare.arrives, ?_, hm.congr rfl hcompare.output⟩
  change (1 == b.slot m (ended.zero.getD ended.slots.size)) = false
  rw [hslot]
  rfl

/-- After the body of a loop the machine goes back to the condition. -/
theorem back_runs {ended : Draft} {goes : String} (hended : ended.WellFormed) (hat : b.At ended m)
    (hm : b.Mirrors types names s m) (hl : ((compared ended).back d.codeSize goes).Leads b.whole) :
    ∃ n last, Machine.Runs n m last ∧ b.At d last ∧ b.Mirrors types names s last := by
  have hlnote : ((compared ended).addLine (.note .verbose goes)).Leads b.whole :=
    hl.of_addLine
  obtain ⟨n, m₁, hruns, hat₁, hzero, hm₁⟩ :=
    compared_runs hended hat hm hlnote.of_addLine
  have hnote : b.At ((compared ended).addLine (.note .verbose goes)) m₁ :=
    ⟨hat₁.carries, by rw [Draft.code_addLine_note]; exact hat₁.pc⟩
  have hsize : size ((compared ended).back d.codeSize goes).code =
      (compared ended).codeSize + 2 := by
    rw [code_back, size_append, (compared ended).codeSize_eq]
    rfl
  obtain ⟨last, hstep, hlast, hmirrors⟩ : ∃ last, Machine.Runs 1 m₁ last ∧ b.At d last ∧
      b.Mirrors types names s last := by
    refine branch_to hnote hm₁ hl ?_
    rw [pc_after_bne_false _ _ hzero]
    change UInt8.ofNat (size ((compared ended).back d.codeSize goes).code) +
      (UInt8.ofNat d.codeSize - UInt8.ofNat ((compared ended).codeSize + 2)) = _
    rw [hsize, add_sub_cancel, d.codeSize_eq]
  exact ⟨n + 1, last, hruns.trans hstep, hlast, hmirrors⟩

/-- A loop is followed if its body is. -/
theorem simulates_whileDo (hcond : ExprTyped table.typeOf names condition .boolean)
    (hbody : b.Simulates table names body names rounds) :
    b.Simulates table names (.node { node := .branch .whileStatement } [condition, body]) names
      rounds := by
  intro d next m s hd hrun hl hk hat hm
  obtain ⟨tested, ended, goes, lands, htest, hdraft, rfl⟩ := Stmt.whileDo_drafts hrun
  have htested := Expr.builds_condition table _ d tested hd htest
  have hbranched : (branched tested).WellFormed := htested.sound.addJump.addLine _
  have hended := Stmt.adds_draft table _ _ ended hbranched hdraft
  have hends : ended.Extends ((compared ended).back d.codeSize goes) :=
    (piece_compared hended.sound).grows.trans ((Draft.Extends.addLine _ _).trans (.addLine _ _))
  have hback := hended.grows.trans hends
  have hlback := hl.of_landed (distances_open hback)
  have hlended := hends.leads hlback
  have hlbranched := hended.grows.leads hlended
  -- The rounds that are left bound the steps from below; each round takes at least its branch.
  suffices hloop : ∀ k ≤ rounds, ∀ m s, b.At d m → b.Mirrors table.typeOf names s m →
      b.Attains table.typeOf k ((compared ended).back d.codeSize goes) names m
        (repeatWhile condition (exec rounds body) k s) from
    (hloop rounds (Nat.le_refl _) m s hat hm).congr (code_landed _ _ _ _)
  intro k hk'
  induction k with
  | zero => exact fun m s _ _ ↦ ⟨0, m, .refl m, Nat.le_refl _⟩
  | succ k ih =>
    intro m s hat hm
    obtain ⟨x, n, m₁, heval, hruns, hat₁, hzero, hm₁⟩ :=
      test_runs hcond hd htest ((extends_branched tested).leads hlbranched) hk hat hm
    rw [repeatWhile, heval]
    cases x with
    | true =>
      obtain ⟨m₂, hstep, hat₂, hm₂⟩ := enter_runs hat₁ hm₁ hlbranched hzero
      have hattains := hbody _ ended m₂ s hbranched hdraft hlended (slotted_branched hk htested)
        hat₂ hm₂
      have hround := (hattains.mono (Nat.le_of_succ_le hk')).andThen
        (f := repeatWhile condition (exec rounds body) k) fun s' m₃ hat₃ hm₃ ↦ by
          obtain ⟨j, m₄, hj, hat₄, hm₄⟩ := back_runs hended.sound hat₃ hm₃ hlback
          exact ((ih (Nat.le_of_succ_le hk') m₄ s' hat₄ hm₄).prepend hj).mono
            (Nat.le_add_left _ _)
      exact (hround.prepend (hruns.trans hstep)).mono (by omega)
    | false =>
      obtain ⟨m₂, hstep, hat₂, hm₂⟩ := over_runs hback hat₁ hm₁ hl hzero
      exact ⟨n + 1, m₂, hruns.trans hstep, hat₂, hm₂⟩

variable (b) in
/-- Every machine that mirrors the program before statements follows them one after the other. -/
def SimulatesAll (table : ScopeTable) (names : Bindings) (ts : Forest Resolved) (later : Bindings)
    (rounds : Nat) : Prop :=
  ∀ d next m s, d.WellFormed → (Stmt.draftAll table (Stmt.ofTrees ts)).run d = .ok () next →
    next.Leads b.whole → (∀ n ∈ names, Slotted d.homes n.2) → b.At d m →
      b.Mirrors table.typeOf names s m →
        b.Attains table.typeOf rounds next later m (execAll rounds ts s)

/-- A block is followed if its statements are. -/
theorem simulates_block {inner : Bindings} {ts : Forest Resolved} (hsuffix : names <:+ inner)
    (hbody : b.SimulatesAll table names ts inner rounds) :
    b.Simulates table names (.node { node := .branch .block } ts) names rounds := by
  intro d next m s hd hrun hl hk hat hm
  change b.Attains _ _ _ _ _ ((execAll rounds ts s).andThen fun last ↦ .done (leave s.env last))
  refine (hbody d next m s hd hrun hl hk hat hm).andThen fun s' last hlast hm' ↦ ?_
  exact ⟨0, last, .refl last, hlast, hm'.leave hsuffix hm.bound.length_eq⟩

end Housed

mutual

/-- Machines follow well-typed statements. -/
theorem StmtTyped.simulates {b : Housed} {table : ScopeTable} {names later : Bindings}
    {n last : Nat} {t : Tree Resolved} (h : StmtTyped table.typeOf names n t later last)
    (hn : Numbered n (names.map Prod.snd)) (rounds : Nat) :
    b.Simulates table names t later rounds := by
  cases h with
  | declare htype hne =>
    intro d next m s hd hrun hl hk hat hm
    obtain ⟨v, hv⟩ := Datum.exists_first? (htype ▸ hne)
    exact Housed.declare_attains hv htype hd hrun hl hk hat hm rounds
  | assign hlookup hvalue =>
    intro d next m s hd hrun hl hk hat hm
    exact Housed.assign_attains hlookup hvalue hn.nodup hd hrun hl hk hat hm rounds
  | print hvalue =>
    intro d next m s hd hrun hl hk hat hm
    exact Housed.print_attains hvalue hd hrun hl hk hat hm rounds
  | ifThen hcond hbody =>
    exact Housed.simulates_ifThen hcond (StmtTyped.simulates hbody hn rounds)
  | whileDo hcond hbody =>
    exact Housed.simulates_whileDo hcond (StmtTyped.simulates hbody hn rounds)
  | block hbody =>
    exact Housed.simulates_block hbody.grows.1 (StmtsTyped.simulates hbody hn rounds)

/-- Machines follow well-typed statements one after the other. -/
theorem StmtsTyped.simulates {b : Housed} {table : ScopeTable} {names later : Bindings}
    {n last : Nat} {ts : Forest Resolved} (h : StmtsTyped table.typeOf names n ts later last)
    (hn : Numbered n (names.map Prod.snd)) (rounds : Nat) :
    b.SimulatesAll table names ts later rounds := by
  intro d next m s hd hrun hl hk hat hm
  cases h with
  | nil =>
    cases hrun
    exact ⟨0, m, .refl m, hat, hm⟩
  | cons ht hts =>
    obtain ⟨mid, hmid, hrest⟩ := Stmt.draftAll_cons_eq_ok.mp hrun
    have hpiece := Stmt.adds_draft table _ d mid hd hmid
    have hlmid := (Stmt.adds_draftAll table _ mid next hpiece.sound hrest).grows.leads hl
    obtain ⟨mid', hmid', hknown⟩ := ht.drafts hd hk
    rw [hmid] at hmid'
    cases hmid'
    exact (StmtTyped.simulates ht hn rounds d mid m s hd hmid hlmid hk hat hm).andThen
      fun s' middle hat' hm' ↦ StmtsTyped.simulates hts (ht.numbered hn) rounds mid next middle s'
        hpiece.sound hrest hl hknown hat' hm'

end

end OnePage
