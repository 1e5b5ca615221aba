import OnePage.Proofs.Simulation
import OnePage.Proofs.WellTyped

/-!
# The compiler is correct

The image of every source that compiles does what the program means. If the program terminates, the
machine halts with its output after some number of steps and under every limit that allows as many;
if the program diverges, the machine reaches every limit.
-/

namespace OnePage

open Instruction Drafting Interpreter

/-- The executable of a well-typed program is that of its draft, linked. -/
theorem exists_housed {a : Analysis} {exe : Executable} {program : Tree Resolved}
    {later : Bindings} {last : Nat} (htree : a.tree = [program])
    (typed : StmtTyped a.table.typeOf [] 0 program later last)
    (h : (generate a).result = .ok exe) :
    ∃ (b : Housed) (d : Draft), b.exe = exe ∧ b.whole = d.closed ∧
      (Stmt.draft a.table (Stmt.ofTree program)).run Draft.opened = .ok () d := by
  obtain ⟨root, rest, b, d, htree', hexe, hwhole, _, hprogram⟩ := generate_built h
  rw [htree] at htree'
  cases htree'
  have hnumbered := typed.homes Draft.wellFormed_opened hprogram (.nil 0)
  exact ⟨{ b with distinct := hwhole ▸ hnumbered.nodup }, d, hexe, hwhole, hprogram⟩

namespace Housed

variable {b : Housed} {d : Draft}

/-- The machine starts where the program does. -/
theorem at_start (b : Housed) : b.At Draft.opened (Machine.start b.exe.bytes) :=
  ⟨fun _ _ ↦ rfl, rfl⟩

/-- The machine mirrors the program before it has done anything. -/
theorem mirrors_start (b : Housed) (types : SymbolId → VarType) :
    b.Mirrors types [] {} (Machine.start b.exe.bytes) where
  output := rfl
  bound := .nil
  zero z hz := b.linked.read_slot (b.sound.zero_lt z hz)

/-- The machine halts where the program ends. -/
theorem halts {m : Machine} (h : b.At d m) (hwhole : b.whole = d.closed) :
    ∃ last, m.step = (.halted, last) ∧ last.output = m.output := by
  have hnote : b.At (d.addLine (.note .everything "end of program, writing BRK")) m :=
    ⟨h.carries, by rw [Draft.code_addLine_note]; exact h.pc⟩
  have hl : ((d.addLine (.note .everything "end of program, writing BRK")).addLine
      (.code .brk)).Leads b.whole := hwhole ▸ .refl _
  exact ⟨_, hnote.step hl, rfl⟩

/-- The machine follows the program from its start to its end. -/
theorem attains_program {table : ScopeTable} {program : Tree Resolved} {later : Bindings}
    {last : Nat} (typed : StmtTyped table.typeOf [] 0 program later last)
    (hwhole : b.whole = d.closed)
    (hdraft : (Stmt.draft table (Stmt.ofTree program)).run Draft.opened = .ok () d)
    (rounds : Nat) :
    b.Attains table.typeOf rounds d later (Machine.start b.exe.bytes) (exec rounds program {}) := by
  have hl : d.Leads b.whole :=
    hwhole ▸ d.extends_closed.leads (.refl _)
  exact typed.simulates (.nil 0) rounds _ d _ _ Draft.wellFormed_opened hdraft hl
    (by simp) b.at_start (b.mirrors_start _)

end Housed

/-- The compiler is correct: the image of a source that compiles does what its program means. The
program terminates or diverges. If it terminates with some output, there is a number of steps after
which the machine halts with that output; a run with a lower limit reports its limit. If it
diverges, every run reports its limit. -/
theorem compile_preserves_meaning (source : String) (artifact : Artifact)
    (h : (compile source).result = .ok artifact) :
    ∃ program, artifact.analysis.tree = [program] ∧
      ((∃ output, Terminates program output) ∨ Diverges program) ∧
      (∀ output, Terminates program output → ∃ n, ∀ limit,
        (n ≤ limit → Machine.run artifact.image.bytes limit = .ok { output, steps := n }) ∧
        (limit < n → Machine.run artifact.image.bytes limit = .error (.stepLimit limit))) ∧
      (Diverges program →
        ∀ limit, Machine.run artifact.image.bytes limit = .error (.stepLimit limit)) := by
  obtain ⟨hscan, hparse, hanalyze, hgenerate⟩ := compile_eq_ok h
  obtain ⟨program, htree, typed⟩ := stages_typed hscan hparse hanalyze
  obtain ⟨b, d, hexe, hwhole, hdraft⟩ := exists_housed htree typed hgenerate
  have hattains := b.attains_program typed hwhole hdraft
  rw [hexe] at hattains
  refine ⟨program, htree, ?_, ?_, ?_⟩
  · by_cases hends : ∃ rounds s, exec rounds program {} = .done s
    · obtain ⟨rounds, s, hs⟩ := hends
      exact .inl ⟨s.output, rounds, s, hs, rfl⟩
    · refine .inr fun rounds ↦ ?_
      have hround := hattains rounds
      cases hresult : exec rounds program {} with
      | done s => exact absurd ⟨rounds, s, hresult⟩ hends
      | unfinished => rfl
      | stuck =>
        rw [hresult] at hround
        exact hround.elim
  · rintro output ⟨rounds, s, hs, rfl⟩
    have hround := hattains rounds
    rw [hs] at hround
    obtain ⟨n, m, hruns, hat, hm⟩ := hround
    obtain ⟨last, hhalts, houtput⟩ := Housed.halts hat hwhole
    refine ⟨n + 1, fun limit ↦ ?_⟩
    rw [← hm.output, ← houtput]
    exact Machine.run_of_halts hruns hhalts limit
  · intro hdiverges limit
    -- As many rounds as the limit has steps take at least that many steps.
    have hround := hattains limit
    rw [hdiverges limit] at hround
    obtain ⟨n, m, hruns, hle⟩ := hround
    exact Machine.runFor_of_le hruns limit limit hle

/-- A source that counts, with a variable that shadows another. -/
def counting : String :=
  "\x7bint a while (a != 2) \x7ba = 1 + a string b \x7bint b print(b)\x7d print(a)\x7d\x7d$"

/-- The image of a source that counts prints what the program does. -/
theorem compile_preserves_meaning_counting : ∃ artifact,
    (compile counting).result = .ok artifact ∧
      ∃ n, Machine.run artifact.image.bytes n = .ok { output := "0102", steps := n } := by
  have hok : ((compile counting).result.toOption.map fun artifact ↦
      artifact.analysis.tree.map fun program ↦
        match exec 3 program {} with
        | .done s => some s.output
        | _ => none) = some [some "0102"] := by decide +kernel
  cases h : (compile counting).result with
  | error e =>
    rw [h] at hok
    cases hok
  | ok artifact =>
    obtain ⟨program, htree, _, hterminates, _⟩ := compile_preserves_meaning counting artifact h
    rw [h] at hok
    cases hresult : exec 3 program {} with
    | done s =>
      have houtput : s.output = "0102" := by
        simpa [Except.toOption, htree, hresult] using hok
      obtain ⟨n, hn⟩ := hterminates "0102" ⟨3, s, hresult, houtput⟩
      exact ⟨artifact, rfl, n, (hn n).1 (Nat.le_refl n)⟩
    | unfinished | stuck => simp [Except.toOption, htree, hresult] at hok

end OnePage
