import OnePage.Proofs.Linking
import OnePage.Proofs.Readiness
import OnePage.Proofs.WellTyped

/-!
# Analysed programs lack nothing but room

A draft whose operands are settled is assembled unless it does not fit on the page. What the
analysis of a source accepts is well typed and so has such a draft: generating its code fails for
want of room or not at all.
-/

namespace OnePage

open Instruction

namespace Assembly

/-- Every cell of a settled instruction has a byte. -/
theorem byteOf_symbolic {codeLen : Nat} {d : Draft} {address : String → UInt8} {i : Code}
    (h : d.Settles i) {cell : Cell} (hc : cell ∈ i.symbolic address) (e : CodeError) :
    byteOf codeLen d cell ≠ .error e := by
  cases cell with
  | const byte | heap byte => exact fun he ↦ nomatch he
  | temp k =>
    have hslot : i.slot? = some k := by
      cases i with
      | lda v | ldx v | ldy v | bne v => cases v <;> simp [symbolic, cells, operand] at hc
      | _ => simp_all [symbolic, cells, operand, slot?]
    have hget : (addresses codeLen d)[k]? = some (codeLen + k) := by
      simp [addresses, h.slot k hslot]
    simp [byteOf, hget]
  | jump j =>
    have hjump : i.jump? = some j := by
      cases i with
      | lda v | ldx v | ldy v | bne v =>
        cases v <;> simp_all [symbolic, cells, operand, jump?]
      | _ => simp [symbolic, cells, operand] at hc
    obtain ⟨v, hv⟩ := h.jump j hjump
    simp [byteOf, hv]

/-- A cell of a filled image without a byte is one of the code. -/
theorem Filled.mem_code {s : Assembly} {code : List Cell} (h : Filled s code) {d : Draft}
    {codeLen : Nat} {cell : Cell} {e : CodeError} (hc : cell ∈ s.image.cells.toList)
    (he : byteOf codeLen d cell = .error e) : cell ∈ code := by
  have hconst (b : UInt8) : cell ≠ .const b := by
    rintro rfl
    cases he
  rw [h.regions.cells, List.mem_append, List.mem_append] at hc
  rcases hc with hcode | hfree | htext
  · exact hcode
  · exact absurd (List.eq_of_mem_replicate hfree) (hconst 0)
  · obtain ⟨entry, _, hentry⟩ := List.mem_flatMap.mp htext
    rw [textCells_eq] at hentry
    obtain ⟨b, _, hb⟩ := List.mem_map.mp hentry
    exact absurd hb.symm (hconst b)

/-- Finishing filled code with settled operands fails only if the slots do not fit. -/
theorem finish_error {table : ScopeTable} {d : Draft} {s t : Assembly} {e : CodeError}
    {address : String → UInt8} (hs : Filled s (Line.symbolic address d.lines.toList))
    (settled : ∀ i ∈ d.code, d.Settles i) (h : (finish table d).run s = .error e t) :
    e = .outOfMemory ∧ s.image.heapStart < s.image.position + d.slots.size := by
  have hrun := run_finish table d s
  split at hrun
  · next hroom =>
    obtain ⟨_, hrun⟩ := hrun
    rw [hrun] at h
    cases h
    exact ⟨rfl, hroom⟩
  · split at hrun
    · next err hmap =>
      -- Only the cells of code can be symbolic, and those of settled code have bytes.
      have hcells := toList_mapM (byteOf s.image.position d) s.image.cells
      rw [hmap] at hcells
      obtain ⟨cell, hcell, herror⟩ := mapM_eq_error (show _ = Except.error err from hcells)
      have hcode := hs.mem_code hcell herror
      rw [Line.symbolic] at hcode
      obtain ⟨i, hi, hsymbolic⟩ := List.mem_flatMap.mp hcode
      exact absurd herror (byteOf_symbolic (settled i hi) hsymbolic err)
    · obtain ⟨_, hrun⟩ := hrun
      rw [hrun] at h
      cases h

/-- A draft with settled operands is assembled, unless it does not fit. -/
theorem assemble_error {table : ScopeTable} {d : Draft} {s : Assembly} {e : CodeError}
    (settled : ∀ i ∈ d.code, d.Settles i)
    (h : (assemble table d none).run start = .error e s) : e = .outOfMemory := by
  rcases run_bind_eq_error.mp
    (show (lines d.lines.toList >>= fun _ ↦ finish table d).run start = .error e s from h) with
    hlines | ⟨_, mid, hlines, hfinish⟩
  · exact lines_error hlines
  · obtain ⟨hfilled, -, -⟩ := lines_ok filled_start hlines
    exact (finish_error hfilled settled hfinish).1

end Assembly

/-- A program's draft has only settled operands. -/
theorem Stmt.draftProgram_settled {table : ScopeTable} {program : Stmt} {d : Draft}
    (h : (program.draftProgram table).run {} = .ok () d) : ∀ i ∈ d.code, d.Settles i := by
  obtain ⟨body, hcode, hsettled, _⟩ := Stmt.draftProgram_closed h
  rw [hcode]
  refine List.forall_mem_append.mpr ⟨hsettled, ?_⟩
  simpa using ⟨by simp [slot?, operand], by simp [jump?, operand]⟩

/-- Generating code is assembling the draft, if there is one. -/
theorem generate_eq_report {a : Analysis} {root : Tree Resolved} {rest : Forest Resolved}
    {d : Draft} (htree : a.tree = root :: rest)
    (hdraft : ((Stmt.ofTree root).draftProgram a.table).run {} = .ok () d) :
    generate a = Assembly.report (Assembly.assemble a.table d none) := by
  rw [generate, htree]
  dsimp only
  rw [hdraft]

/-- Generating the code of a well-typed program fails for want of room or not at all. -/
theorem StmtTyped.generate {a : Analysis} {root : Tree Resolved} {rest : Forest Resolved}
    {later : Bindings} {last : Nat} (htree : a.tree = root :: rest)
    (h : StmtTyped a.table.typeOf [] 0 root later last) :
    (∃ exe, (generate a).result = .ok exe) ∨ (generate a).result = .error .outOfMemory := by
  obtain ⟨d, hdraft⟩ := h.draftsProgram
  rw [generate_eq_report htree hdraft, Assembly.report]
  split
  · next exe s _ => exact .inl ⟨exe, rfl⟩
  · next e s hrun =>
    rw [Assembly.assemble_error (Stmt.draftProgram_settled hdraft) hrun]
    exact .inr rfl

/-- The analyser shields the generator: from what scanning, parsing and analysing a source gives, an
executable is generated, unless the program does not fit on the page. -/
theorem generate_shielded (source : String) (tokens : List Token) (program : Forest Node)
    (a : Analysis) (hscan : (Scan.ofSource source).result = .ok tokens)
    (hparse : (parse tokens).result = .ok program) (hanalyze : (analyze program).result = .ok a) :
    (∃ exe, (generate a).result = .ok exe) ∨ (generate a).result = .error .outOfMemory := by
  obtain ⟨root, htree, htyped⟩ := stages_typed hscan hparse hanalyze
  exact htyped.generate htree

/-- A source with a text in a loop. -/
def textLoop : String := "\x7bstring s while (s != \"a\") \x7bs = \"a\"\x7d print(s)\x7d$"

/-- A text in a loop is generated, unless it does not fit. -/
theorem generate_shielded_textLoop : ∃ a, (∃ tokens program,
    (Scan.ofSource textLoop).result = .ok tokens ∧ (parse tokens).result = .ok program ∧
      (analyze program).result = .ok a) ∧
    ((∃ exe, (generate a).result = .ok exe) ∨ (generate a).result = .error .outOfMemory) := by
  have hok : (compile textLoop).result.isOk := by decide +kernel
  cases h : (compile textLoop).result with
  | error e =>
    rw [h] at hok
    cases hok
  | ok artifact =>
    obtain ⟨hscan, hparse, hanalyze, _⟩ := compile_eq_ok h
    exact ⟨_, ⟨_, _, hscan, hparse, hanalyze⟩, generate_shielded _ _ _ _ hscan hparse hanalyze⟩

end OnePage
