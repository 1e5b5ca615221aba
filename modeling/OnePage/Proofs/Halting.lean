import OnePage.Proofs.Advancing
import OnePage.Proofs.Checking
import OnePage.Proofs.Tiling

/-!
# Programs without loops halt

A program whose tokens hold no word for a loop is drafted without a branch back. So on its page the
program counter only grows, each step passes at least one instruction of the listing, and the run
halts after at most as many steps as there are instructions.
-/

namespace OnePage

open Instruction

/-! ### Runs that only go ahead -/

/-- Of two beginnings of some code the longer one takes more bytes. -/
theorem Instruction.length_lt_iff_size_lt {xs ys code : List (Instruction UInt8 UInt8)}
    (hx : xs <+: code) (hy : ys <+: code) : xs.length < ys.length ↔ size xs < size ys := by
  have grows : ∀ {us vs : List (Instruction UInt8 UInt8)}, us <+: code → vs <+: code →
      us.length < vs.length → size us < size vs := by
    intro us vs hu hv hlt
    obtain ⟨rest, rfl⟩ := List.prefix_of_prefix_length_le hu hv (Nat.le_of_lt hlt)
    cases rest with
    | nil => simp at hlt
    | cons i rest =>
      have := i.width_pos
      rw [size_append, size_cons]
      omega
  constructor
  · exact grows hx hy
  · intro hsize
    by_cases hlt : xs.length < ys.length
    · exact hlt
    · obtain ⟨rest, rfl⟩ := List.prefix_of_prefix_length_le hy hx (Nat.le_of_not_lt hlt)
      rw [size_append] at hsize
      omega

namespace Machine

/-- Only a branch moves the program counter, which is already past the instruction. -/
theorem pc_execute (m : Machine) (i : Instruction UInt8 UInt8) :
    (execute m i).2.pc = m.pc ∨
      ∃ distance, i = .bne distance ∧ (execute m i).2.pc = m.pc + distance := by
  cases i with
  | bne distance =>
    simp only [execute]
    split
    · exact .inl rfl
    · exact .inr ⟨distance, rfl, rfl⟩
  | sys =>
    left
    simp only [execute, callSystem]
    split
    · rfl
    · split <;> rfl
  | _ => exact .inl rfl

variable {page : Page} {low high : Nat} {body : List (Instruction UInt8 UInt8)} {m next : Machine}

/-- On a page whose code goes ahead each step increases the program counter. -/
theorem pc_lt_step (secure : page.Secure low high body) (ahead : Flow.Ahead body)
    (safe : m.Safe page low high body) (h : m.step = (.running, next)) :
    m.pc.toNat < next.pc.toNat := by
  obtain ⟨front, i, back, hcode, hpc, _⟩ := safe.position
  rw [step_eq secure (fun a ha ↦ safe.memory a (.inl ha)) hcode hpc] at h
  rcases eq_brk_or_split hcode with rfl | ⟨init, hbody⟩
  · cases h
  · have hends := secure.ends
    have hfits := secure.fits
    have hwidth := i.width_pos
    have hsize : size front + (i.width + size init) = size body := by
      rw [hbody, size_append, size_cons]
    have hnext := congrArg (·.2.pc) h
    dsimp only at hnext
    rw [hpc, ← hnext, UInt8.toNat_ofNat', Nat.mod_eq_of_lt (by omega)]
    rcases pc_execute { m with
        steps := m.steps + 1, pc := UInt8.ofNat (size front + i.width) } i with
      hstay | ⟨distance, rfl, hmove⟩
    · rw [hstay, UInt8.toNat_ofNat', Nat.mod_eq_of_lt (by omega)]
      omega
    · -- The distance does not lead past the end of the code, so the sum is no more than a byte.
      have hdistance : distance.toNat ≤ size init := (hbody ▸ ahead).branch_le
      rw [hmove, UInt8.toNat_add, UInt8.toNat_ofNat', Nat.mod_eq_of_lt (a := size front + _)
        (by omega), Nat.mod_eq_of_lt (by omega)]
      omega

/-- A safe machine is at one of its instructions, and the code before it ends at its program
counter. -/
theorem Safe.exists_position (secure : page.Secure low high body)
    (safe : m.Safe page low high body) :
    ∃ front, front <+: body ++ [.brk] ∧ front.length ≤ body.length ∧
      m.pc.toNat = size front := by
  obtain ⟨front, i, back, hcode, hpc, _⟩ := safe.position
  have hlength := congrArg List.length hcode
  have hsize := congrArg size hcode
  have hwidth := i.width_pos
  have hends := secure.ends
  have hfits := secure.fits
  rw [size_append, size_append, size_cons, size_cons, size_nil] at hsize
  change size body + (1 + 0) = _ at hsize
  simp only [List.length_append, List.length_cons, List.length_nil] at hlength
  refine ⟨front, ⟨i :: back, hcode.symm⟩, by omega, ?_⟩
  rw [hpc, UInt8.toNat_ofNat', Nat.mod_eq_of_lt (by omega)]

/-- A run passes at least one instruction with each step. -/
theorem Runs.length_le (secure : page.Secure low high body) (ahead : Flow.Ahead body) {n : Nat}
    {last : Machine} (h : Runs n m last) (safe : m.Safe page low high body)
    {front front' : List (Instruction UInt8 UInt8)} (hfront : front <+: body ++ [.brk])
    (hpc : m.pc.toNat = size front) (hfront' : front' <+: body ++ [.brk])
    (hpc' : last.pc.toNat = size front') : front.length + n ≤ front'.length := by
  induction h generalizing front with
  | refl =>
    have hle : ¬ front'.length < front.length := by
      rw [length_lt_iff_size_lt hfront' hfront, ← hpc, hpc']
      exact Nat.lt_irrefl _
    omega
  | @head n m next last hstep hrest ih =>
    have hnext : next.Safe page low high body := .runs (.single hstep) safe secure
    obtain ⟨mid, hmid, _, hpcmid⟩ := hnext.exists_position secure
    have hlt : front.length < mid.length := by
      rw [length_lt_iff_size_lt hfront hmid, ← hpc, ← hpcmid]
      exact pc_lt_step secure ahead safe hstep
    have := ih hnext hmid hpcmid hpc'
    omega

/-- A run from the start of a page whose code goes ahead is shorter than the code with its halt. -/
theorem Runs.le_length (secure : page.Secure low high body) (ahead : Flow.Ahead body) {n : Nat}
    {last : Machine} (h : Runs n (start page) last) : n ≤ body.length := by
  have hlast : last.Safe page low high body := .runs h (.start secure) secure
  obtain ⟨front, hfront, hlength, hpc⟩ := hlast.exists_position secure
  have := Runs.length_le secure ahead h (.start secure) (List.nil_prefix) rfl hfront hpc
  rw [List.length_nil] at this
  omega

/-- A machine on a secure page halts, or it runs for any number of steps. -/
theorem halts_or_runs (secure : page.Secure low high body) (n : Nat) :
    (∃ k m last, Runs k (start page) m ∧ m.step = (.halted, last)) ∨
      ∃ m, Runs n (start page) m := by
  induction n with
  | zero => exact .inr ⟨_, .refl _⟩
  | succ n ih =>
    rcases ih with hhalts | ⟨m, hruns⟩
    · exact .inl hhalts
    · have safe : m.Safe page low high body := .runs hruns (.start secure) secure
      rcases safe.step secure with ⟨last, hhalt⟩ | ⟨next, hnext, _⟩
      · exact .inl ⟨n, m, last, hruns, hhalt⟩
      · exact .inr ⟨next, hruns.trans (.single hnext)⟩

/-- On a page whose code goes ahead the machine halts. -/
theorem halts_of_ahead (secure : page.Secure low high body) (ahead : Flow.Ahead body) :
    ∃ k m last, k ≤ body.length ∧ Runs k (start page) m ∧ m.step = (.halted, last) := by
  rcases halts_or_runs secure (body.length + 1) with ⟨k, m, last, hruns, hhalt⟩ | ⟨m, hruns⟩
  · exact ⟨k, m, last, Runs.le_length secure ahead hruns, hruns, hhalt⟩
  · exact absurd (Runs.le_length secure ahead hruns) (by omega)

end Machine

/-! ### Trees without loops -/

mutual

private theorem Tree.labels_shape : ∀ t : Tree Resolved,
    t.shape.labels = t.labels.map (·.node.unplaced)
  | .node r children => by
    rw [Tree.shape, Tree.labels, Tree.labels, Forest.labels_shapes children, List.map_cons]

private theorem Forest.labels_shapes : ∀ ts : Forest Resolved,
    Forest.labels (Forest.shapes ts) = (Forest.labels ts).map (·.node.unplaced)
  | [] => rfl
  | t :: ts => by
    rw [Forest.shapes, Forest.labels, Forest.labels, Tree.labels_shape t,
      Forest.labels_shapes ts, List.map_append]

end

namespace Stmt

private theorem loopFree_ofDeclaration (node : Node) (ts : Forest Resolved) :
    (ofDeclaration node ts).loopFree = true := by
  unfold ofDeclaration
  split
  · split <;> rfl
  · rfl

private theorem loopFree_ofAssignment (node : Node) (ts : Forest Resolved) :
    (ofAssignment node ts).loopFree = true := by
  unfold ofAssignment
  split
  · split <;> rfl
  · rfl

private theorem loopFree_ofPrint (node : Node) (ts : Forest Resolved) :
    (ofPrint node ts).loopFree = true := by
  unfold ofPrint
  split <;> rfl

mutual

/-- A tree in which no node is a loop stands for a statement without loops. -/
theorem loopFree_ofTree : ∀ t : Tree Resolved,
    (∀ r ∈ t.labels, r.node.production? ≠ some .whileStatement) → (ofTree t).loopFree = true
  | .node r children, h => by
    obtain ⟨hroot, hchildren⟩ := List.forall_mem_cons.mp h
    unfold ofTree
    split
    · exact loopFree_ofTrees children hchildren
    · exact loopFree_ofDeclaration _ children
    · exact loopFree_ofAssignment _ children
    · exact loopFree_ofPrint _ children
    · split
      · next condition body =>
        simp only [Forest.labels, List.append_nil, List.forall_mem_append] at hchildren
        exact loopFree_ofTree body hchildren.2
      · rfl
    · next hwhile => exact absurd (by rw [hwhile]; rfl) hroot
    · rfl

private theorem loopFree_ofTrees : ∀ ts : Forest Resolved,
    (∀ r ∈ Forest.labels ts, r.node.production? ≠ some .whileStatement) →
      loopFreeAll (ofTrees ts) = true
  | [], _ => rfl
  | t :: ts, h => by
    rw [Forest.labels, List.forall_mem_append] at h
    rw [ofTrees, loopFreeAll, loopFree_ofTree t h.1, loopFree_ofTrees ts h.2]
    rfl

end

end Stmt

mutual

/-- The shape of an expression has no nonterminal in it. -/
theorem ExprPhrase.production?_shape : ∀ e : ExprPhrase,
    ∀ n ∈ e.shape.labels, n.production? = none
  | .digit m => by simp [ExprPhrase.shape, Mark.shape, Tree.leaf, Tree.labels, Forest.labels,
      Node.unplaced, Node.production?]
  | .sum m plus rest => by
    have ih := ExprPhrase.production?_shape rest
    simpa [ExprPhrase.shape, Mark.shape, Tree.leaf, Tree.labels, Forest.labels,
      Node.unplaced, Node.production?] using ih
  | .text opening chars closing => by
    simp [ExprPhrase.shape, Tree.leaf, Tree.labels, Forest.labels, Node.production?]
  | .bool b => by
    have ih := BoolPhrase.production?_shape b
    simpa [ExprPhrase.shape] using ih
  | .name m => by simp [ExprPhrase.shape, Mark.shape, Tree.leaf, Tree.labels, Forest.labels,
      Node.unplaced, Node.production?]

private theorem BoolPhrase.production?_shape : ∀ b : BoolPhrase,
    ∀ n ∈ b.shape.labels, n.production? = none
  | .value m => by simp [BoolPhrase.shape, Mark.shape, Tree.leaf, Tree.labels, Forest.labels,
      Node.unplaced, Node.production?]
  | .compare opening left operator right closing => by
    have ihl := ExprPhrase.production?_shape left
    have ihr := ExprPhrase.production?_shape right
    simp only [BoolPhrase.shape, Tree.labels, Forest.labels, List.append_nil,
      List.forall_mem_cons, List.forall_mem_append]
    exact ⟨rfl, ihl, ihr⟩

end

private theorem Node.production?_unplaced (n : Node) : n.unplaced.production? = n.production? := by
  cases n <;> rfl

mutual

/-- The shape of a statement written without the word for a loop has no loop in it. -/
theorem StmtPhrase.loopFree_shape : ∀ s : StmtPhrase,
    (∀ t ∈ s.tokens, t.kind ≠ .whileWord) →
      ∀ n ∈ s.shape.labels, n.production? ≠ some .whileStatement
  | .print word opening value closing, _ => by
    have hvalue := value.production?_shape
    simp only [StmtPhrase.shape, Tree.labels, Forest.labels, List.append_nil,
      List.forall_mem_cons]
    refine ⟨nofun, fun n hn ↦ ?_⟩
    rw [hvalue n hn]
    exact nofun
  | .assign name sign value, _ => by
    have hvalue := value.production?_shape
    simp only [StmtPhrase.shape, Mark.shape, Tree.leaf, Tree.labels, Forest.labels,
      List.append_nil, List.forall_mem_cons, List.forall_mem_append]
    refine ⟨nofun, ⟨nofun, nofun⟩, fun n hn ↦ ?_⟩
    rw [hvalue n hn]
    exact nofun
  | .declare type name, _ => by
    simp only [StmtPhrase.shape, Mark.shape, Tree.leaf, Tree.labels, Forest.labels,
      List.append_nil, List.forall_mem_cons, List.forall_mem_append]
    exact ⟨nofun, ⟨nofun, nofun⟩, nofun, nofun⟩
  | .whileDo word condition opening body closing, h =>
    absurd rfl (h (word.token .whileWord) (by simp [StmtPhrase.tokens]))
  | .ifThen word condition opening body closing, h => by
    have hcondition := condition.production?_shape
    have hbody := StmtPhrase.loopFree_shapes body fun t ht ↦
      h t (by simp [StmtPhrase.tokens, blockTokens, ht])
    simp only [StmtPhrase.shape, Tree.labels, Forest.labels, List.append_nil,
      List.forall_mem_cons, List.forall_mem_append]
    refine ⟨nofun, fun n hn ↦ ?_, nofun, hbody⟩
    rw [hcondition n hn]
    exact nofun
  | .block opening body closing, h => by
    have hbody := StmtPhrase.loopFree_shapes body fun t ht ↦
      h t (by simp [StmtPhrase.tokens, blockTokens, ht])
    simp only [StmtPhrase.shape, Tree.labels, List.forall_mem_cons]
    exact ⟨nofun, hbody⟩

private theorem StmtPhrase.loopFree_shapes : ∀ ss : List StmtPhrase,
    (∀ t ∈ StmtPhrase.allTokens ss, t.kind ≠ .whileWord) →
      ∀ n ∈ Forest.labels (StmtPhrase.shapes ss), n.production? ≠ some .whileStatement
  | [], _ => nofun
  | s :: ss, h => by
    rw [StmtPhrase.allTokens, List.forall_mem_append] at h
    rw [StmtPhrase.shapes, Forest.labels, List.forall_mem_append]
    exact ⟨StmtPhrase.loopFree_shape s h.1, StmtPhrase.loopFree_shapes ss h.2⟩

end

/-- The analysis of a program leaves the shape of the program. -/
theorem analyze_shape {p : ProgramPhrase} {a : Analysis}
    (h : (analyze [p.tree]).result = .ok a) : ∃ root, a.tree = [root] ∧ root.shape = p.shape := by
  cases hcheck : p.check with
  | error e =>
    rw [analyze_of_check_error hcheck] at h
    cases h
  | ok frame =>
    obtain ⟨_, root, hok, htree, hshape⟩ := analyze_of_check_ok hcheck
    rw [hok] at h
    cases h
    exact ⟨root, htree, hshape⟩

/-- A program written without the word for a loop has no loop in it. -/
theorem stages_loopFree {tokens : List Token} {cst : Forest Node} {a : Analysis}
    (hparse : (parse tokens).result = .ok cst) (hanalyze : (analyze cst).result = .ok a)
    (hloop : ∀ t ∈ tokens, t.kind ≠ .whileWord) :
    ∃ root, a.tree = [root] ∧ (Stmt.ofTree root).loopFree = true := by
  obtain ⟨rest, hprogram⟩ := parse_eq_ok.mp hparse
  obtain ⟨p, rfl, rfl⟩ := Derivation.program_sound hprogram
  obtain ⟨root, htree, hshape⟩ := analyze_shape hanalyze
  have hbody := StmtPhrase.loopFree_shapes p.body fun t ht ↦
    hloop t (by simp [ProgramPhrase.tokens, blockTokens, ht])
  refine ⟨root, htree, Stmt.loopFree_ofTree root fun r hr ↦ ?_⟩
  have hlabel : r.node.unplaced ∈ p.shape.labels := by
    rw [← hshape, Tree.labels_shape]
    exact List.mem_map_of_mem hr
  rw [← Node.production?_unplaced]
  rcases List.mem_cons.mp hlabel with heq | hmem
  · rw [heq]
    exact nofun
  · exact hbody _ hmem

/-! ### Images without loops -/

private theorem Instruction.length_offsets (start : Nat) (code : List (Instruction UInt8 UInt8)) :
    (offsets start code).length = code.length := by
  induction code generalizing start with
  | nil => rfl
  | cons i code ih => rw [offsets, List.length_cons, List.length_cons, ih]

/-- A program that is built from a tree without loops goes ahead. -/
theorem Built.ahead {b : Built} {table : ScopeTable} {program : Stmt} {d : Draft}
    (hwhole : b.whole = d.closed) (hbody : b.body = d.code) (hfree : program.loopFree = true)
    (hdraft : (Stmt.draft table program).run Draft.opened = .ok () d) :
    Flow.Ahead (b.layout.resolveAll b.body) := by
  have hadvances := Stmt.forward_draft table program hfree _ () d Draft.wellFormed_opened hdraft
  have hagrees : b.layout.Agrees d := by
    refine Layout.Agrees.of_extends ?_ d.extends_closed
    rw [← hwhole]
    exact b.linked.distances
  rw [hbody]
  exact hadvances.ahead d.code b.layout rfl hagrees

/-- The image of a source text without the word for a loop halts. It executes no more steps than
its listing has instructions, with the same outcome under every limit that allows them. -/
theorem compile_loopFree_halts (source : String) (artifact : Artifact)
    (h : (compile source).result = .ok artifact)
    (hloop : ∀ t ∈ artifact.tokens, t.kind ≠ .whileWord) :
    ∃ listing outcome, Listing.ofBytes artifact.image.bytes.toArray = .ok listing ∧
      outcome.steps ≤ listing.length ∧
      (∀ limit, listing.length ≤ limit →
        Machine.run artifact.image.bytes limit = .ok outcome) ∧
      (∀ limit, Machine.run artifact.image.bytes limit =
        if outcome.steps ≤ limit then .ok outcome else .error (.stepLimit limit)) ∧
      ∀ n m, Machine.Runs n (Machine.start artifact.image.bytes) m →
        m.steps = n ∧ n < outcome.steps := by
  obtain ⟨_, hparse, hanalyze, hgenerate⟩ := compile_eq_ok h
  obtain ⟨root, htree, hfree⟩ := stages_loopFree hparse hanalyze hloop
  obtain ⟨root', rest, b, d, htree', hexe, hwhole, hbody, hdraft⟩ := generate_built hgenerate
  obtain ⟨rfl, -⟩ := List.cons.inj (htree.symm.trans htree')
  have ahead := Built.ahead hwhole hbody hfree hdraft
  obtain ⟨k, m, last, hk, hruns, hhalt⟩ := Machine.halts_of_ahead b.secure ahead
  rw [← hexe]
  have hrun : ∀ limit, Machine.run b.exe.bytes limit =
      if k + 1 ≤ limit then .ok { output := last.output, steps := k + 1 }
      else .error (.stepLimit limit) := by
    intro limit
    obtain ⟨henough, hshort⟩ := Machine.run_of_halts hruns hhalt limit
    split
    · next hle => exact henough hle
    · next hlt => exact hshort (Nat.lt_of_not_le hlt)
  have hlength : (offsets 0 b.final).length = b.body.length + 1 := by
    rw [length_offsets, Built.final, List.length_append, Layout.resolveAll, List.length_map]
    rfl
  rw [Layout.resolveAll, List.length_map] at hk
  refine ⟨offsets 0 b.final, { output := last.output, steps := k + 1 }, b.listed_final, ?_, ?_,
    hrun, fun n m' hn ↦ ⟨by simpa [Machine.start] using hn.steps_eq, ?_⟩⟩
  · rw [hlength]
    exact Nat.succ_le_succ hk
  · intro limit hlimit
    rw [hrun, if_pos (by omega)]
  · -- A run past the halt would still go on where the machine has halted.
    by_contra hlt
    have hlimit := Machine.runFor_of_le hn n n (Nat.le_refl n)
    have hok := hrun n
    rw [if_pos (Nat.le_of_not_lt hlt), Machine.run, hlimit] at hok
    cases hok

/-- A source with a condition that holds and one that does not, and with a comparison printed. -/
def straightOn : String :=
  "\x7bint a a = 4 if (a == 4) \x7bprint(a) if (a != 4) \x7bprint(\"no\")\x7d\x7d " ++
    "print((a == 1 + 3))\x7d$"

/-- A source with conditions in each other halts under every limit that is at least the number of
its instructions. -/
theorem compile_loopFree_halts_straightOn : ∃ artifact listing outcome,
    (compile straightOn).result = .ok artifact ∧
    (∀ t ∈ artifact.tokens, t.kind ≠ .whileWord) ∧
    Listing.ofBytes artifact.image.bytes.toArray = .ok listing ∧
    outcome.steps ≤ listing.length ∧
    ∀ limit, listing.length ≤ limit → Machine.run artifact.image.bytes limit = .ok outcome := by
  have hwords : (compile straightOn).result.toOption.map
      (·.tokens.all (·.kind != .whileWord)) = some true := by decide +kernel
  cases h : (compile straightOn).result with
  | error e =>
    rw [h] at hwords
    cases hwords
  | ok artifact =>
    rw [h] at hwords
    have hloop : ∀ t ∈ artifact.tokens, t.kind ≠ .whileWord := fun t ht ↦
      bne_iff_ne.mp (List.all_eq_true.mp (Option.some.inj hwords) t ht)
    obtain ⟨listing, outcome, hlisting, hsteps, hrun, _⟩ :=
      compile_loopFree_halts straightOn artifact h hloop
    exact ⟨artifact, listing, outcome, rfl, hloop, hlisting, hsteps, hrun⟩

end OnePage
