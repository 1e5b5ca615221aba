import OnePage.Proofs.Running

/-!
# Runs under a limit

A run under a limit takes one step after the other until a step does not go on or the limit is
reached. It is the same whether it counts down the steps that are left or compares the machine's own
count with the limit before each step: a step that goes on counts itself, and one that does not is
the last. Once a limit lets a run end by itself, no larger limit changes how it ends.
-/

namespace OnePage.Machine

variable {limit n k : Nat} {m mid next last : Machine}

/-! ### The count and the limit -/

/-- The result of a run that goes on while the machine's own count of steps is below the limit. -/
inductive Counts (limit : Nat) : Machine → Except MachineError Outcome → Prop where
  | reached {m : Machine} : limit ≤ m.steps → Counts limit m (.error (.stepLimit limit))
  | goesOn {m next : Machine} {result : Except MachineError Outcome} : m.steps < limit →
      m.step = (.running, next) → Counts limit next result → Counts limit m result
  | halts {m last : Machine} : m.steps < limit → m.step = (.halted, last) →
      Counts limit m (.ok { output := last.output, steps := last.steps })
  | fails {m last : Machine} {e : MachineError} : m.steps < limit → m.step = (.fault e, last) →
      Counts limit m (.error e)

/-- The steps left are what the count lacks to the limit. -/
theorem counts_runFor (left : Nat) (m : Machine) (h : left = limit - m.steps) :
    Counts limit m (runFor limit left m) := by
  induction left generalizing m with
  | zero => exact .reached (by omega)
  | succ left ih =>
    have hbelow : m.steps < limit := by omega
    rw [runFor]
    split
    · next next hstep =>
      have hcount := steps_step hstep (by simp)
      exact .goesOn hbelow hstep (ih next (by omega))
    · next last hstep => exact .halts hbelow hstep
    · next e last hstep => exact .fails hbelow hstep

/-- A run has one result. -/
theorem Counts.unique {first second : Except MachineError Outcome} (h : Counts limit m first)
    (k : Counts limit m second) : first = second := by
  induction h with
  | reached hle =>
    cases k with
    | reached _ => rfl
    | goesOn hlt _ _ | halts hlt _ | fails hlt _ => exact absurd hle (Nat.not_le.mpr hlt)
  | goesOn hlt hstep _ ih =>
    cases k with
    | reached hle => exact absurd hle (Nat.not_le.mpr hlt)
    | goesOn _ hstep' hrest =>
      cases hstep.symm.trans hstep'
      exact ih hrest
    | halts _ hstep' | fails _ hstep' => cases hstep.symm.trans hstep'
  | halts hlt hstep =>
    cases k with
    | reached hle => exact absurd hle (Nat.not_le.mpr hlt)
    | goesOn _ hstep' _ | fails _ hstep' => cases hstep.symm.trans hstep'
    | halts _ hstep' =>
      cases hstep.symm.trans hstep'
      rfl
  | fails hlt hstep =>
    cases k with
    | reached hle => exact absurd hle (Nat.not_le.mpr hlt)
    | goesOn _ hstep' _ | halts _ hstep' => cases hstep.symm.trans hstep'
    | fails _ hstep' =>
      cases hstep.symm.trans hstep'
      rfl

/-! ### The results of the steps one by one -/

/-- How many of the first steps go on before one does not. -/
def leading (count : Nat) (m : Machine) : Nat :=
  ((trace count m).takeWhile (·.1 == .running)).length

/-- Steps that all go on make a run. -/
theorem runs_iff_trace : (∃ last, Runs n m last) ↔ ∀ result ∈ trace n m, result.1 = .running := by
  induction n generalizing m with
  | zero => exact ⟨fun _ ↦ by simp [trace], fun _ ↦ ⟨m, .refl m⟩⟩
  | succ n ih =>
    rw [trace, List.forall_mem_cons, ← ih]
    constructor
    · rintro ⟨last, hruns⟩
      cases hruns with
      | head hstep hrest =>
        rw [hstep]
        exact ⟨rfl, last, hrest⟩
    · rintro ⟨hrunning, last, hrest⟩
      exact ⟨last, .head (Prod.ext hrunning rfl) hrest⟩

/-- Right after a run comes the step at its end; if that does not go on, the steps of the run are
the leading ones. -/
theorem Runs.trace_eq (h : Runs n m mid) (hlt : n < k) (hstops : mid.step.1 ≠ .running) :
    leading k m = n ∧ (trace k m)[n]? = some mid.step := by
  induction h generalizing k with
  | refl m =>
    obtain ⟨k, rfl⟩ := Nat.exists_eq_succ_of_ne_zero (Nat.ne_of_gt hlt)
    simp [leading, trace, hstops]
  | head hstep _ ih =>
    obtain ⟨k, rfl⟩ := Nat.exists_eq_succ_of_ne_zero (Nat.ne_zero_of_lt hlt)
    obtain ⟨hleading, hresult⟩ := ih (Nat.lt_of_succ_lt_succ hlt) hstops
    simp only [leading, trace, hstep, List.takeWhile_cons, List.getElem?_cons_succ]
    exact ⟨congrArg Nat.succ hleading, hresult⟩

/-- Either the given number of steps go on, or one of them is the first that does not. -/
theorem runs_or_stops (k : Nat) (m : Machine) :
    (∃ last, Runs k m last) ∨ ∃ n < k, ∃ mid, Runs n m mid ∧ mid.step.1 ≠ .running := by
  induction k generalizing m with
  | zero => exact .inl ⟨m, .refl m⟩
  | succ k ih =>
    by_cases hrunning : m.step.1 = .running
    · have hstep : m.step = (.running, m.step.2) := Prod.ext hrunning rfl
      rcases ih m.step.2 with ⟨last, hruns⟩ | ⟨n, hlt, mid, hruns, hstops⟩
      · exact .inl ⟨last, .head hstep hruns⟩
      · exact .inr ⟨n + 1, Nat.succ_lt_succ hlt, mid, .head hstep hruns, hstops⟩
    · exact .inr ⟨0, Nat.succ_pos k, m, .refl m, hrunning⟩

/-! ### How a run ends by itself -/

/-- The result of a run whose step of the given number is the first that does not go on. -/
inductive Ends (count : Nat) : Status × Machine → Except MachineError Outcome → Prop where
  | halted (last : Machine) :
      Ends count (.halted, last) (.ok { output := last.output, steps := count })
  | fault (e : MachineError) (last : Machine) : Ends count (.fault e, last) (.error e)

/-- Reading an instruction does not fail for want of steps. -/
theorem fetch_ne_stepLimit (m : Machine) (reported : Nat) :
    m.fetch ≠ .error (.stepLimit reported) := by
  intro h
  simp only [fetch, Instruction.decodeAt, bind, Except.bind, pure, Except.pure, throw,
    throwThe, MonadExceptOf.throw] at h
  split at h
  · cases h
  · cases h
  · cases h
  · split at h <;> cases h

/-- No step fails for want of steps. -/
theorem step_ne_stepLimit {e : MachineError} (h : m.step = (.fault e, next)) (reported : Nat) :
    e ≠ .stepLimit reported := by
  rintro rfl
  unfold step at h
  split at h
  · next e hfetch =>
    cases h
    exact fetch_ne_stepLimit m reported hfetch
  · next i _ =>
    cases i with
    | sys =>
      simp only [execute, callSystem] at h
      split at h
      · cases h
      · split at h <;> cases h
    | _ => cases h

/-- A run that ends by itself does so under every limit that it stays below. -/
theorem run_of_stops {page : Page} (h : Runs n (start page) mid) (hstops : mid.step.1 ≠ .running) :
    ∃ result, Ends (n + 1) mid.step result ∧
      (∀ reported, result ≠ .error (.stepLimit reported)) ∧
      ∀ limit, n < limit → run page limit = result := by
  cases hstep : mid.step with
  | mk status last =>
    cases status with
    | running => exact absurd (congrArg Prod.fst hstep) hstops
    | halted =>
      refine ⟨_, .halted last, nofun, fun limit hlt ↦ (run_of_halts h hstep limit).1 hlt⟩
    | fault e =>
      refine ⟨_, .fault e last, ?_, fun limit hlt ↦ ?_⟩
      · intro reported heq
        exact step_ne_stepLimit hstep reported (Except.error.inj heq)
      · have hsum : n + (limit - n - 1 + 1) = limit := by omega
        unfold run
        conv => lhs; arg 2; rw [← hsum]
        rw [runFor_add h, runFor, hstep]

/-- Running a page under a limit is taking steps as long as the machine has counted fewer than the
limit. The limit is reported exactly if all the steps it allows go on. Otherwise, after the leading
steps that go on, the run ends with the next one: with its error, or with the output so far and the
number of steps if it halts. A larger limit changes nothing but a report of the limit. -/
theorem run_iterates_step (page : Page) (limit : Nat) :
    (∀ result, Counts limit (start page) result ↔ result = run page limit) ∧
      (run page limit = .error (.stepLimit limit) ↔
        ∀ result ∈ trace limit (start page), result.1 = .running) ∧
      (∀ reported, run page limit = .error (.stepLimit reported) → reported = limit) ∧
      ((∀ result ∈ trace limit (start page), result.1 = .running) ∨
        ∃ n < limit, leading limit (start page) = n ∧
          ∃ stop, (trace limit (start page))[n]? = some stop ∧ Ends (n + 1) stop (run page limit)) ∧
      (run page limit ≠ .error (.stepLimit limit) →
        ∀ larger, limit ≤ larger → run page larger = run page limit) := by
  have hcounts : Counts limit (start page) (run page limit) := counts_runFor limit _ rfl
  have hloop : ∀ result, Counts limit (start page) result ↔ result = run page limit :=
    fun result ↦ ⟨fun h ↦ h.unique hcounts, fun h ↦ h ▸ hcounts⟩
  refine ⟨hloop, ?_⟩
  rw [← runs_iff_trace]
  rcases runs_or_stops limit (start page) with hruns | ⟨n, hlt, mid, hruns, hstops⟩
  · have hlimit : run page limit = .error (.stepLimit limit) := by
      obtain ⟨last, hlast⟩ := hruns
      exact runFor_of_le hlast limit limit (Nat.le_refl _)
    rw [hlimit]
    refine ⟨⟨fun _ ↦ hruns, fun _ ↦ rfl⟩, fun reported heq ↦ ?_, .inl hruns, fun h ↦ absurd rfl h⟩
    cases heq
    rfl
  · obtain ⟨result, hends, hother, hresult⟩ := run_of_stops hruns hstops
    obtain ⟨hleading, hstop⟩ := hruns.trace_eq hlt hstops
    rw [hresult limit hlt]
    refine ⟨⟨fun heq ↦ absurd heq (hother limit), fun hall ↦ ?_⟩,
      fun reported heq ↦ absurd heq (hother reported),
      .inr ⟨n, hlt, hleading, mid.step, hstop, hends⟩,
      fun _ larger hle ↦ hresult larger (Nat.lt_of_lt_of_le hlt hle)⟩
    have hrunning := runs_iff_trace.mp hall mid.step (List.mem_of_getElem? hstop)
    exact absurd hrunning hstops

/-- A page that adds one to its halt, which then is no instruction any more. -/
def spoiledHalt : Page := .ofList [0xEE, 0x03, 0x00, 0x00]

/-- The first step goes on and the second fails, so a limit of one is reported, and every larger one
gives the error. -/
theorem run_iterates_step_spoiledHalt :
    run spoiledHalt 1 = .error (.stepLimit 1) ∧
      ∀ larger, 2 ≤ larger → run spoiledHalt larger = .error (.unknownOpcode 1 3) := by
  have hgoesOn : ∀ result ∈ trace 1 (start spoiledHalt), result.1 = .running := by decide +kernel
  have hleading : leading 2 (start spoiledHalt) = 1 := by decide +kernel
  have hstatus : (trace 2 (start spoiledHalt))[1]?.map Prod.fst =
      some (.fault (.unknownOpcode 1 3)) := by decide +kernel
  obtain ⟨_, hlimit, _⟩ := run_iterates_step spoiledHalt 1
  obtain ⟨_, _, _, hfails, hlarger⟩ := run_iterates_step spoiledHalt 2
  have hrun : run spoiledHalt 2 = .error (.unknownOpcode 1 3) := by
    obtain ⟨stop, hstop, hfault⟩ := Option.map_eq_some_iff.mp hstatus
    rcases hfails with hall | ⟨n, _, rfl, found, hfound, hends⟩
    · have hrunning := hall stop (List.mem_of_getElem? hstop)
      rw [hfault] at hrunning
      cases hrunning
    · rw [hleading, hstop] at hfound
      cases hfound
      generalize run spoiledHalt 2 = result at hends ⊢
      cases hends with
      | halted last => cases hfault
      | fault e last =>
        cases hfault
        rfl
  rw [hrun] at hlarger
  exact ⟨hlimit.mpr hgoesOn, hlarger (by simp)⟩

end OnePage.Machine
