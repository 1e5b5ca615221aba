import OnePage.Proofs.Linking
import OnePage.Proofs.Running
import OnePage.Proofs.StatementPieces

/-!
# Generated images run safely

The code of an image is closed and addresses only the region between code and texts. A machine that
starts on such an image stays at the instructions of its listing, changes nothing outside that
region and never fails, whatever its branches do. The invariant is stated of one state, kept by one
step and so by every run.
-/

namespace OnePage

open Instruction

/-- A page whose code is closed, ends below the region from `low` to `high` and addresses only
that region. -/
structure Page.Secure (page : Page) (low high : Nat) (body : List (Instruction UInt8 UInt8)) :
    Prop where
  closed : Flow.Closed 0 body
  held : page.Holds 0 (encodeAll (body ++ [.brk]))
  ends : size body < low
  fits : low ≤ 256
  addresses : ∀ i ∈ body, ∀ a, i.operand = .address a → low ≤ a.toNat ∧ a.toNat < high

namespace Machine

/-- The machine is at an instruction of its code, at a system call only with a number in X, and
its memory is that of the page outside the region. -/
structure Safe (page : Page) (low high : Nat) (body : List (Instruction UInt8 UInt8))
    (m : Machine) : Prop where
  position : ∃ front i back, body ++ [.brk] = front ++ i :: back ∧
    m.pc = UInt8.ofNat (size front) ∧ (i = .sys → m.x = 1 ∨ m.x = 2)
  memory : ∀ address : UInt8, address.toNat < low ∨ high ≤ address.toNat →
    m.memory.read address = page.read address

variable {page : Page} {low high : Nat} {body : List (Instruction UInt8 UInt8)} {m next : Machine}

/-- A machine with the code of a secure page executes the instruction that stands at its program
counter. -/
theorem step_eq (secure : page.Secure low high body)
    (memory : ∀ address : UInt8, address.toNat < low → m.memory.read address = page.read address)
    {front back : List (Instruction UInt8 UInt8)} {i : Instruction UInt8 UInt8}
    (hcode : body ++ [.brk] = front ++ i :: back) (hpc : m.pc = UInt8.ofNat (size front)) :
    m.step =
      execute { m with steps := m.steps + 1, pc := UInt8.ofNat (size front + i.width) } i := by
  have hsize : size front + i.width + size back = size body + 1 := by
    have := congrArg size hcode
    rw [size_append, size_append, size_cons, size_cons, size_nil] at this
    change size body + 1 = _ at this
    omega
  have hends := secure.ends
  have hfits := secure.fits
  have hnat : m.pc.toNat = size front := by
    rw [hpc, UInt8.toNat_ofNat', Nat.mod_eq_of_lt]
    have := i.width_pos
    omega
  have hheld : page.Holds (size front) i.encode := by
    have hall := secure.held
    rw [hcode] at hall
    rw [← Nat.zero_add (size front)]
    exact hall.instruction
  have hfetch : m.fetch = .ok i := by
    apply fetch_of_holds
    rw [hnat]
    refine hheld.congr fun k hk ↦ memory _ ?_
    rw [length_encode] at hk
    rw [UInt8.toNat_ofNat', Nat.mod_eq_of_lt] <;> omega
  unfold step
  rw [hfetch]
  dsimp only
  rw [hpc, ← UInt8.ofNat_add]

/-- The machine at the start of the page is safe. -/
theorem Safe.start (secure : page.Secure low high body) : (start page).Safe page low high body where
  position := by
    cases body with
    | nil => exact ⟨[], .brk, [], rfl, rfl, by simp⟩
    | cons i body =>
      refine ⟨[], i, body ++ [.brk], rfl, rfl, fun hi ↦ ?_⟩
      rcases secure.closed.calls.1 hi with h | h <;> cases h
  memory _ _ := rfl

/-- Where closed code may be entered, there is an instruction other than a system call. -/
theorem position_of_entry {p : UInt8} (h : Flow.Entry 0 body p) :
    ∃ front i back, body ++ [.brk] = front ++ i :: back ∧ p = UInt8.ofNat (size front) ∧
      i ≠ .sys := by
  obtain ⟨front, back, rfl, hp, hhead⟩ := Flow.entry_split h
  rw [Nat.zero_add] at hp
  cases back with
  | nil => exact ⟨front, .brk, [], by simp, hp, by simp⟩
  | cons i back => exact ⟨front, i, back ++ [.brk], by simp, hp, hhead i rfl⟩

/-- A system call right after an instruction is prepared by it. -/
theorem calls_next {before : Option (Instruction UInt8 UInt8)}
    {front rest : List (Instruction UInt8 UInt8)} {i : Instruction UInt8 UInt8}
    (h : Flow.Calls before (front ++ i :: .sys :: rest)) : i = .ldx 1 ∨ i = .ldx 2 := by
  induction front generalizing before with
  | nil =>
    rcases h.2.1 rfl with hi | hi
    · exact .inl (Option.some.inj hi)
    · exact .inr (Option.some.inj hi)
  | cons j front ih => exact ih h.2

/-- A machine past an instruction that is not the halt, with memory as it was outside the region,
is safe if the instruction loaded X as it says. -/
theorem Safe.advance (secure : page.Secure low high body)
    {front init : List (Instruction UInt8 UInt8)} {i : Instruction UInt8 UInt8}
    (hbody : body = front ++ i :: init) (hpc : next.pc = UInt8.ofNat (size front + i.width))
    (hx : ∀ v, i = .ldx v → next.x = v)
    (memory : ∀ address : UInt8, address.toNat < low ∨ high ≤ address.toNat →
      next.memory.read address = page.read address) : next.Safe page low high body := by
  have hpc' : next.pc = UInt8.ofNat (size (front ++ [i])) := by
    rw [hpc, size_append, size_cons, size_nil, Nat.add_zero]
  refine ⟨?_, memory⟩
  cases init with
  | nil => exact ⟨front ++ [i], .brk, [], by simp [hbody], hpc', by simp⟩
  | cons j rest =>
    refine ⟨front ++ [i], j, rest ++ [.brk], by simp [hbody], hpc', ?_⟩
    rintro rfl
    have hcalls := secure.closed.calls
    rw [hbody] at hcalls
    exact (calls_next hcalls).imp (hx 1) (hx 2)

/-- Writing into the region keeps the memory outside it. -/
theorem Safe.memory_write (h : m.Safe page low high body) {a : UInt8}
    (ha : low ≤ a.toNat ∧ a.toNat < high) (value : UInt8) (address : UInt8)
    (outside : address.toNat < low ∨ high ≤ address.toNat) :
    (m.memory.write a value).read address = page.read address := by
  have hne : a ≠ address := by
    rintro rfl
    omega
  rw [Page.read_write_of_ne m.memory value hne]
  exact h.memory address outside

/-- A branch of closed code goes to one of its entries. -/
theorem branch_entry (closed : Flow.Closed 0 body) {front init : List (Instruction UInt8 UInt8)}
    {distance : UInt8} (hbody : body = front ++ .bne distance :: init) :
    Flow.Entry 0 body (UInt8.ofNat (size front + 2) + distance) := by
  have hbranches := closed.branches
  rw [hbody, Flow.branches_append] at hbranches
  have htarget := hbranches.2.1 distance rfl
  rw [Nat.zero_add, ← hbody] at htarget
  exact htarget

/-- An instruction of code that ends with a halt is that halt or stands before it. -/
theorem eq_brk_or_split {front back : List (Instruction UInt8 UInt8)}
    {i : Instruction UInt8 UInt8} (h : body ++ [.brk] = front ++ i :: back) :
    i = .brk ∨ ∃ init, body = front ++ i :: init := by
  rcases List.eq_nil_or_concat back with rfl | ⟨init, z, rfl⟩
  · exact .inl (List.cons.inj (List.append_inj' h rfl).2).1.symm
  · rw [List.concat_eq_append, ← List.cons_append, ← List.append_assoc] at h
    exact .inr ⟨init, (List.append_inj' h rfl).1⟩

/-- A safe machine halts or steps to a safe one. -/
theorem Safe.step (h : m.Safe page low high body) (secure : page.Secure low high body) :
    (∃ last, m.step = (.halted, last)) ∨
      ∃ next, m.step = (.running, next) ∧ next.Safe page low high body := by
  obtain ⟨front, i, back, hcode, hpc, hsys⟩ := h.position
  have hstep := step_eq secure (fun a ha ↦ h.memory a (.inl ha)) hcode hpc
  rcases eq_brk_or_split hcode with rfl | ⟨init, hbody⟩
  · exact .inl ⟨_, hstep⟩
  · have hmem : i ∈ body := by simp [hbody]
    have hahead {last : Machine} (hp : last.pc = UInt8.ofNat (size front + i.width))
        (hx : ∀ v, i = .ldx v → last.x = v) (hm : last.memory = m.memory) :
        last.Safe page low high body :=
      .advance secure hbody hp hx (by rw [hm]; exact h.memory)
    refine .inr ?_
    rw [hstep]
    cases i with
    | lda v | ldaAt a | adc a | ldxAt a | ldy v | ldyAt a | cpx a | nop =>
      exact ⟨_, rfl, hahead rfl (by simp) rfl⟩
    | ldx v => exact ⟨_, rfl, hahead rfl (by simp) rfl⟩
    | sta a =>
      have ha := secure.addresses _ hmem a rfl
      exact ⟨_, rfl, .advance secure hbody rfl (by simp) (h.memory_write ha _)⟩
    | inc a =>
      have ha := secure.addresses _ hmem a rfl
      exact ⟨_, rfl, .advance secure hbody rfl (by simp) (h.memory_write ha _)⟩
    | bne distance =>
      -- Whether the branch is taken is left open; both targets are safe.
      refine ⟨_, rfl, ?_⟩
      dsimp only
      split
      · exact hahead rfl (by simp) rfl
      · obtain ⟨front', j, back', hcode', hp, hj⟩ :=
          position_of_entry (branch_entry secure.closed hbody)
        exact ⟨⟨front', j, back', hcode', hp, fun hs ↦ absurd hs hj⟩, h.memory⟩
    | brk => exact absurd hmem secure.closed.runsOn
    | sys =>
      rcases hsys rfl with hx | hx
      · exact ⟨_, callSystem_one hx, hahead rfl (by simp) rfl⟩
      · exact ⟨_, callSystem_two hx, hahead rfl (by simp) rfl⟩

/-- Every machine that a safe one reaches is safe. -/
theorem Safe.runs {n : Nat} {last : Machine} (h : Runs n m last)
    (safe : m.Safe page low high body) (secure : page.Secure low high body) :
    last.Safe page low high body := by
  induction h with
  | refl => exact safe
  | head hstep _ ih =>
    rcases safe.step secure with ⟨last, hhalt⟩ | ⟨next, hnext, hsafe⟩
    · rw [hhalt] at hstep
      cases hstep
    · rw [hnext] at hstep
      cases hstep
      exact ih hsafe

/-- A bounded run of a safe machine halts or reaches its limit. -/
theorem Safe.runFor (safe : m.Safe page low high body) (secure : page.Secure low high body)
    (limit n : Nat) :
    (∃ outcome, runFor limit n m = .ok outcome) ∨
      runFor limit n m = .error (.stepLimit limit) := by
  induction n generalizing m with
  | zero => exact .inr rfl
  | succ n ih =>
    rcases safe.step secure with ⟨last, hhalt⟩ | ⟨next, hnext, hsafe⟩
    · refine .inl ⟨{ output := last.output, steps := last.steps }, ?_⟩
      rw [Machine.runFor, hhalt]
    · rw [Machine.runFor, hnext]
      exact ih hsafe

end Machine

/-- The page of a linked draft is secure. -/
theorem Linked.secure {d : Draft} {layout : Layout} {texts : List (String × UInt8)}
    {exe : Executable} (h : Linked d layout texts exe) {body : List Code}
    (hcode : d.code = body ++ [.brk]) (settled : ∀ i ∈ body, d.Settles i)
    (closed : Flow.Closed 0 (layout.resolveAll body)) :
    exe.bytes.Secure exe.codeLen (exe.codeLen + exe.staticLen) (layout.resolveAll body) where
  closed := closed
  held := by
    have hheld := h.holds_code
    rw [hcode, Layout.resolveAll, List.map_append] at hheld
    exact hheld
  ends := by
    rw [layout.size_resolveAll, h.codeLen, hcode, size_append]
    exact Nat.lt_add_of_pos_right (by decide)
  fits := by
    have hroom := h.room
    have hend := h.heap_end
    omega
  addresses i hi a ha := by
    obtain ⟨c, hc, rfl⟩ := List.mem_map.mp hi
    obtain ⟨k, hk, rfl⟩ := Layout.operand_resolve ha
    have hlt : k < exe.staticLen := by
      rw [h.staticLen]
      exact (settled c hc).slot k hk
    have hroom := h.room
    have hend := h.heap_end
    rw [Layout.slot, h.base, UInt8.toNat_ofNat', Nat.mod_eq_of_lt (by omega)]
    omega

/-- The image of an analysis is secure, whatever its tree and its bindings are. -/
theorem generate_secure {a : Analysis} {exe : Executable} (h : (generate a).result = .ok exe) :
    ∃ body, exe.bytes.Secure exe.codeLen (exe.codeLen + exe.staticLen) body := by
  obtain ⟨root, rest, d, layout, texts, _, hdraft, hlinked⟩ := generate_ok h
  obtain ⟨body, hcode, hsettled, hclosed⟩ := Stmt.draftProgram_closed hdraft
  exact ⟨_, hlinked.secure hcode hsettled (hclosed layout hlinked.distances)⟩

/-- Every image that is generated runs safely. In each state before the halt the program counter
is the offset of a listed instruction, the memory outside the static region is that of the image,
and the next step does not fail; so a bounded run halts or reaches its limit. -/
theorem generate_runs_safely (a : Analysis) (exe : Executable)
    (h : (generate a).result = .ok exe) :
    ∃ listing, Listing.ofBytes exe.bytes.toArray = .ok listing ∧
      (∀ n m, Machine.Runs n (Machine.start exe.bytes) m →
        (∃ i, (m.pc.toNat, i) ∈ listing) ∧
        (∀ address : UInt8,
          address.toNat < exe.codeLen ∨ exe.codeLen + exe.staticLen ≤ address.toNat →
            m.memory.read address = exe.bytes.read address) ∧
        ∀ e, m.step.1 ≠ .fault e) ∧
      ∀ limit, (∃ outcome, Machine.run exe.bytes limit = .ok outcome) ∨
        Machine.run exe.bytes limit = .error (.stepLimit limit) := by
  obtain ⟨body, secure⟩ := generate_secure h
  have hends := secure.ends
  have hfits := secure.fits
  refine ⟨_, Listing.ofBytesFrom_holds exe.bytes body 0 secure.closed.runsOn (by omega)
    secure.held, ?_, fun limit ↦ (Machine.Safe.start secure).runFor secure limit limit⟩
  intro n m hruns
  have safe := Machine.Safe.runs hruns (.start secure) secure
  refine ⟨?_, safe.memory, ?_⟩
  · obtain ⟨front, i, back, hcode, hpc, _⟩ := safe.position
    have hsize := congrArg size hcode
    have hwidth := i.width_pos
    rw [size_append, size_append, size_cons, size_cons, size_nil] at hsize
    change size body + 1 = _ at hsize
    refine ⟨i, ?_⟩
    rw [hpc, UInt8.toNat_ofNat', Nat.mod_eq_of_lt (by omega), hcode, ← Nat.zero_add (size front)]
    exact mem_offsets_append 0 front i back
  · intro e he
    rcases safe.step secure with ⟨last, hhalt⟩ | ⟨next, hnext, _⟩
    · rw [hhalt] at he
      cases he
    · rw [hnext] at he
      cases he

/-- A loop without end, outside any block, whose body compares a text with a number. -/
def endlessLoop : Analysis where
  tree :=
    [.node { node := .branch .whileStatement }
      [.leaf { node := .leaf ⟨"true", .boolVal, .nowhere⟩ },
        .node { node := .branch .printStatement }
          [.node { node := .leaf ⟨"==", .boolOp, .nowhere⟩ }
            [.leaf { node := .literal "one" .nowhere },
              .leaf { node := .leaf ⟨"1", .digit, .nowhere⟩ }]]]]
  table := .start

/-- A loop without end never fails. -/
theorem generate_runs_safely_endlessLoop : ∃ exe, (generate endlessLoop).result = .ok exe ∧
    ∀ n m, Machine.Runs n (Machine.start exe.bytes) m → ∀ e, m.step.1 ≠ .fault e := by
  have hok : (generate endlessLoop).result.isOk := by decide +kernel
  cases h : (generate endlessLoop).result with
  | error e =>
    rw [h] at hok
    cases hok
  | ok exe =>
    obtain ⟨_, _, hsafe, _⟩ := generate_runs_safely endlessLoop exe h
    exact ⟨exe, rfl, fun n m hruns ↦ (hsafe n m hruns).2.2⟩

end OnePage
