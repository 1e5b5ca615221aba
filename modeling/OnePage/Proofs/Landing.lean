import OnePage.Proofs.Reading
import OnePage.Proofs.Tiling

/-!
# Where branches land

The distance of a forward branch is found when the code that it skips is drafted, and written into
the branch when the image is made. On the page the branch ends exactly where the code of its
statement does, since all of the code is shorter than what a byte can count. The branch back of a
loop ends at the condition of the loop, counted around the page.
-/

namespace OnePage

open Instruction Drafting

/-- The branches of a statement, which was drafted from one draft to another, in a listing. An
instruction is listed where the code of the statement ends. If there is a condition, its code is
followed by a branch that ends there. If the statement is a loop, its code ends with a branch whose
target, around the page, is where its condition begins, and an instruction is listed there. -/
structure Stmt.Lands (table : ScopeTable) (listing : List (Nat × Instruction UInt8 UInt8))
    (s : Stmt) (first last : Draft) : Prop where
  follows : ∃ i, (last.codeSize, i) ∈ listing
  forward : ∀ condition body, s.Guards condition body → ∃ tested distance,
    (condition.condition table).run first = .ok () tested ∧
    first.codeSize < tested.codeSize ∧ (tested.codeSize, .bne distance) ∈ listing ∧
    tested.codeSize + 2 + distance.toNat = last.codeSize
  back : ∀ condition body, s = .whileDo condition body → ∃ offset distance,
    offset + 2 = last.codeSize ∧ (offset, .bne distance) ∈ listing ∧
    (offset + 2 + distance.toNat) % 256 = first.codeSize ∧ ∃ i, (first.codeSize, i) ∈ listing

/-- A condition has code. -/
theorem Expr.codeSize_lt_condition {table : ScopeTable} {e : Expr} {d tested : Draft}
    (hd : d.WellFormed) (h : (condition table e).run d = .ok () tested) :
    d.codeSize < tested.codeSize := by
  by_cases he : ∃ x y, e = .compare true x y
  · obtain ⟨x, y, rfl⟩ := he
    obtain ⟨j, k, last, hops, rfl⟩ := condition_eq_ok.mp h
    have hlast := valuePiece_operands (builds_toSlot table x) (builds_toSlot table y) hd hops
    have hle := hlast.1.grows.codeSize_le
    rw [slotsCompared, Draft.codeSize_addLine_code, Draft.codeSize_addLine_code]
    exact Nat.lt_add_right _ (Nat.lt_of_le_of_lt hle (Nat.lt_add_of_pos_right (width_pos _)))
  · simp only [not_exists] at he
    obtain ⟨slot, last, hslot, rfl⟩ := (condition_slot_eq_ok he).mp h
    have hle := (builds_toSlot table e d slot last hd hslot).1.grows.codeSize_le
    rw [Draft.codeSize_addLine_code, Draft.codeSize_addLine_code]
    exact Nat.lt_add_right _ (Nat.lt_of_le_of_lt hle (Nat.lt_add_of_pos_right (width_pos _)))

namespace Built

variable {b : Built} {d : Draft}

/-- An instruction is listed wherever a part of the program ends. -/
theorem listed_end (hbody : b.body = d.code) {first : Draft} (h : first.Leads d) :
    ∃ i, (first.codeSize, i) ∈ offsets 0 b.final := by
  obtain ⟨rest, hrest⟩ := h.code_prefix
  have hfinal : b.final =
      b.layout.resolveAll first.code ++ (b.layout.resolveAll rest ++ [.brk]) := by
    rw [final, hbody, ← hrest, Layout.resolveAll, List.map_append, List.append_assoc]
    rfl
  obtain ⟨i, back, hback⟩ := List.exists_cons_of_ne_nil
    (List.append_ne_nil_of_right_ne_nil (b.layout.resolveAll rest) (List.cons_ne_nil .brk []))
  refine ⟨i, mem_offsets.mpr ⟨_, back, hback ▸ hfinal, ?_⟩⟩
  rw [Nat.zero_add, b.layout.size_resolveAll, Draft.codeSize_eq]

/-- An instruction of the program is listed where the part before it ends. -/
theorem listed_code (hbody : b.body = d.code) {first : Draft} {i : Code}
    (h : (first.addLine (.code i)).Leads d) :
    (first.codeSize, b.layout.resolve i) ∈ offsets 0 b.final := by
  obtain ⟨rest, hrest⟩ := h.code_prefix
  refine mem_offsets.mpr
    ⟨b.layout.resolveAll first.code, b.layout.resolveAll rest ++ [.brk], ?_, ?_⟩
  · rw [final, hbody, ← hrest, Draft.code_addLine_code]
    simp [Layout.resolveAll]
  · rw [Nat.zero_add, b.layout.size_resolveAll, Draft.codeSize_eq]

/-- The code of each part of the program is shorter than the page. -/
theorem codeSize_lt (hbody : b.body = d.code) {first : Draft} (h : first.Leads d) :
    first.codeSize < 256 := by
  obtain ⟨i, hmem⟩ := listed_end hbody h
  exact listed_lt hmem

/-- A forward branch ends where it landed. -/
theorem forward_lands (hbody : b.body = d.code) (hd : d.Leads b.whole) {tested closing : Draft}
    {text : String} (h : (branched tested).Extends closing)
    (hl : (closing.landed text tested.distances.size
      (UInt8.ofNat (closing.codeSize - (branched tested).codeSize))).Leads d) :
    ∃ distance, (tested.codeSize, .bne distance) ∈ offsets 0 b.final ∧
      tested.codeSize + 2 + distance.toNat = closing.codeSize := by
  have hclosing := hl.of_landed (distances_open h)
  have hdistance : b.layout.distance tested.distances.size =
      UInt8.ofNat (closing.codeSize - (branched tested).codeSize) :=
    b.linked.distances _ _ ((hl.trans hd).landed _ _ (distances_landed h text _))
  refine ⟨b.layout.distance tested.distances.size, listed_code hbody (h.leads hclosing), ?_⟩
  have hbranched := codeSize_branched tested
  have hlt := codeSize_lt hbody hclosing
  have hle := h.codeSize_le
  -- The code ends on the page, so nothing of the distance is lost in a byte.
  rw [hdistance, UInt8.toNat_ofNat', Nat.mod_eq_of_lt (by omega)]
  omega

/-- A branch back ends, around the page, where it was to go. -/
theorem back_lands (hbody : b.body = d.code) {ended : Draft} {start : Nat} {text : String}
    (hstart : start < 256) (hl : (ended.back start text).Leads d) :
    ∃ distance, (ended.codeSize, .bne distance) ∈ offsets 0 b.final ∧
      (ended.codeSize + 2 + distance.toNat) % 256 = start := by
  have hlisted := listed_code hbody hl
  rw [Draft.codeSize_addLine_note] at hlisted
  refine ⟨UInt8.ofNat start - UInt8.ofNat (ended.codeSize + 2), hlisted, ?_⟩
  have hagain := congrArg UInt8.toNat
    (add_sub_cancel (UInt8.ofNat (ended.codeSize + 2)) (UInt8.ofNat start))
  rwa [UInt8.toNat_add, UInt8.toNat_ofNat', UInt8.toNat_ofNat', Nat.mod_add_mod,
    Nat.mod_eq_of_lt hstart] at hagain

/-- The branches of a statement of the program end where they should. -/
theorem lands (hbody : b.body = d.code) (hd : d.Leads b.whole) {table : ScopeTable} {s : Stmt}
    {first last : Draft} (hfirst : first.WellFormed) (h : (s.draft table).run first = .ok () last)
    (hl : last.Leads d) : s.Lands table (offsets 0 b.final) first last where
  follows := listed_end hbody hl
  forward := by
    intro condition body hs
    obtain ⟨tested, ended, closing, text, hcond, _, _, hended, hclosing, rfl⟩ := hs.drafts hfirst h
    obtain ⟨distance, hmem, hsum⟩ := forward_lands hbody hd (hended.trans hclosing) hl
    exact ⟨tested, distance, hcond, Expr.codeSize_lt_condition hfirst hcond, hmem,
      by rw [hsum, codeSize_landed]⟩
  back := by
    rintro condition body rfl
    have hstart : first.Leads d := (Stmt.adds_draft table _ first last hfirst h).grows.leads hl
    obtain ⟨tested, ended, goes, text, hcond, hdraft, rfl⟩ := Stmt.whileDo_drafts h
    have htested := (Expr.builds_condition table condition first tested hfirst hcond).sound
    have hended := Stmt.adds_draft table body _ ended (htested.addJump.addLine _) hdraft
    have hback := (piece_compared hended.sound).grows.trans (extends_back _ first.codeSize goes)
    have hlback := hl.of_landed (distances_open (hended.grows.trans hback))
    obtain ⟨distance, hmem, htarget⟩ := back_lands hbody (codeSize_lt hbody hstart) hlback
    exact ⟨_, distance, by rw [codeSize_landed, codeSize_back], hmem, htarget,
      listed_end hbody hstart⟩

end Built

/-- The branches of every image that is generated land where they should: those of each statement of
the program, at any depth. The statements are those of the nodes of the tree, each of the shape of
its node. Each has its call of drafting, which returns, and its branches are listed where the drafts
say. -/
theorem generate_branches_land (a : Analysis) (exe : Executable)
    (h : (generate a).result = .ok exe) : ∃ root rest listing, a.tree = root :: rest ∧
      Listing.ofBytes exe.bytes.toArray = .ok listing ∧
      Call.statements ((Stmt.ofTree root).trace a.table) =
        Stmt.ofTree root :: (Stmt.ofTree root).parts ∧
      root.statements.map Stmt.ofTree = Stmt.ofTree root :: (Stmt.ofTree root).parts ∧
      (∀ t ∈ root.statements, t.Stands (Stmt.ofTree t)) ∧
      ∀ s first, (.draft s, first) ∈ (Stmt.ofTree root).trace a.table → ∃ last,
        (s.draft a.table).run first = .ok () last ∧ s.Lands a.table listing first last := by
  obtain ⟨root, rest, b, d, htree, rfl, hwhole, hbody, hprogram⟩ := generate_built h
  have hd : d.Leads b.whole := hwhole ▸ d.extends_closed.leads (.refl _)
  refine ⟨root, rest, _, htree, b.listed_final, Stmt.statements_trace _ _,
    root.map_statements (Tree.isValid_of_drafted hprogram), Tree.stands_of_drafted hprogram,
    fun s first hcall ↦ ?_⟩
  obtain ⟨hfirst, last, hdraft, hl⟩ := Stmt.returned_trace hprogram _ hcall
  exact ⟨last, hdraft, Built.lands hbody hd hfirst hdraft hl⟩

/-- A node for a token, with the symbol that it stands for. -/
def Tree.ofLexeme (lexeme : String) (kind : Kind) (children : Forest Resolved)
    (symbol : Option SymbolId) : Tree Resolved :=
  .node ⟨.leaf ⟨lexeme, kind, ⟨1, 1⟩⟩, symbol⟩ children

/-- A node for a sum of two. -/
def Tree.plus (left right : Tree Resolved) : Tree Resolved :=
  .ofLexeme "+" .intOp [left, right] none

/-- A node for a number. -/
def Tree.number (lexeme : String) : Tree Resolved := .ofLexeme lexeme .digit [] none

/-- A node for the variable `a`. -/
def Tree.flagVariable : Tree Resolved := .ofLexeme "a" .identifier [] (some 0)

/-- A sum of three, nested on the right. -/
def sumRight : Tree Resolved := .plus (.number "1") (.plus (.number "2") (.number "3"))

/-- A sum of three, nested on the left. -/
def sumLeft : Tree Resolved := .plus (.plus (.number "4") (.number "1")) (.number "1")

/-- A comparison of the two sums. -/
def equalSums : Tree Resolved := .ofLexeme "==" .boolOp [sumRight, sumLeft] none

/-- A loop that compares the sums while `a` is false. -/
def comparingLoop : Tree Resolved :=
  .node ⟨.branch .whileStatement, none⟩
    [.ofLexeme "==" .boolOp [.flagVariable, .ofLexeme "false" .boolVal [] none] none,
     .node ⟨.branch .block, none⟩
      [.node ⟨.branch .assignmentStatement, none⟩ [.flagVariable, equalSums]]]

/-- The loop after the declaration of `a`. -/
def comparingRoot : Tree Resolved :=
  .node ⟨.branch .block, none⟩
    [.node ⟨.branch .varDecl, none⟩ [.ofLexeme "boolean" .typeWord [] none, .flagVariable],
     comparingLoop]

/-- The program as it is analysed. -/
def comparing : Analysis where
  tree := [comparingRoot]
  table := (ScopeTable.start.declare 0 .boolean ⟨"a", .identifier, ⟨1, 1⟩⟩).2

/-- The program has an image with three branches: one over the loop, one in the comparison of the
sums, and one back. -/
theorem generate_comparing : ∃ exe listing, (generate comparing).result = .ok exe ∧
    Listing.ofBytes exe.bytes.toArray = .ok listing ∧
    listing.filter (·.2.opcode == 0xD0) = [(16, .bne 64), (68, .bne 2), (80, .bne 179)] := by
  have h : (generate comparing).result.toOption.map (fun exe ↦
      (Listing.ofBytes exe.bytes.toArray).toOption.map (List.filter (·.2.opcode == 0xD0))) =
      some (some [(16, .bne 64), (68, .bne 2), (80, .bne 179)]) := by
    decide +kernel
  obtain ⟨exe, hexe, hbranches⟩ := Option.map_eq_some_iff.mp h
  obtain ⟨listing, hlisting, hfilter⟩ := Option.map_eq_some_iff.mp hbranches
  exact ⟨exe, listing, eq_ok_of_toOption hexe, eq_ok_of_toOption hlisting, hfilter⟩

/-- The branch over the loop ends after the branch back, which ends at the condition of the loop. -/
theorem generate_branches_land_comparing : ∃ exe listing first last,
    (generate comparing).result = .ok exe ∧ comparing.tree = [comparingRoot] ∧
      comparingLoop ∈ comparingRoot.statements ∧
      comparingLoop.Stands (Stmt.ofTree comparingLoop) ∧
      Listing.ofBytes exe.bytes.toArray = .ok listing ∧
      (.draft (Stmt.ofTree comparingLoop), first) ∈
        (Stmt.ofTree comparingRoot).trace comparing.table ∧
      ((Stmt.ofTree comparingLoop).draft comparing.table).run first = .ok () last ∧
      (16, .bne 64) ∈ listing ∧ 16 + 2 + 64 = last.codeSize ∧
      (80, .bne 179) ∈ listing ∧ (80 + 2 + 179) % 256 = first.codeSize := by
  obtain ⟨exe, listing, hexe, hlisting, hfilter⟩ := generate_comparing
  obtain ⟨root, rest, listing', htree, hlisting', hstatements, hnodes, hstands, hlands⟩ :=
    generate_branches_land comparing exe hexe
  rw [hlisting] at hlisting'
  cases hlisting'
  cases htree
  have hloop : comparingLoop ∈ comparingRoot.statements := .tail _ (.tail _ (.head _))
  have hdrafted := List.mem_map_of_mem (f := Stmt.ofTree) hloop
  rw [hnodes, ← hstatements, Call.mem_statements] at hdrafted
  obtain ⟨first, hcall⟩ := hdrafted
  obtain ⟨last, hdraft, hlast⟩ := hlands _ _ hcall
  have hbranch {offset : Nat} {distance : UInt8} (h : (offset, .bne distance) ∈ listing) :
      offset = 16 ∧ distance = 64 ∨ offset = 68 ∧ distance = 2 ∨ offset = 80 ∧ distance = 179 := by
    have hmem : (offset, .bne distance) ∈ listing.filter (·.2.opcode == 0xD0) :=
      List.mem_filter.mpr ⟨h, rfl⟩
    rw [hfilter] at hmem
    simpa using hmem
  obtain ⟨tested, forward, _, hlt, hforward, hends⟩ := hlast.forward _ _ (.whileDo _ _)
  obtain ⟨offset, back, hlast, hback, htarget, _⟩ := hlast.back _ _ rfl
  -- Of the three branches only one pair ends where the loop does.
  have hpair : (tested.codeSize = 16 ∧ forward = 64) ∧ offset = 80 ∧ back = 179 := by
    rcases hbranch hforward with ⟨hat, rfl⟩ | ⟨hat, rfl⟩ | ⟨hat, rfl⟩ <;>
      rcases hbranch hback with ⟨rfl, rfl⟩ | ⟨rfl, rfl⟩ | ⟨rfl, rfl⟩ <;>
        simp at hends htarget ⊢ <;> omega
  obtain ⟨⟨hat, rfl⟩, rfl, rfl⟩ := hpair
  rw [hat] at hforward hends
  exact ⟨exe, listing, first, last, hexe, rfl, hloop, hstands _ hloop, hlisting, hcall, hdraft,
    hforward, hends, hback, htarget⟩

end OnePage
