import OnePage.Proofs.Encoding

/-!
# Runs of the machine

A run of some length is that many steps after which the machine goes on. A bounded run either stays
within such a run, and then reports its limit, or passes it and goes on from its end.
-/

namespace OnePage

namespace Machine

/-- The second machine is reached from the first by the given number of steps, none of which
halts or fails. -/
inductive Runs : Nat → Machine → Machine → Prop where
  | refl (m : Machine) : Runs 0 m m
  | head {n : Nat} {m next last : Machine} :
    m.step = (.running, next) → Runs n next last → Runs (n + 1) m last

/-- One step that goes on. -/
theorem Runs.single {m next : Machine} (h : m.step = (.running, next)) : Runs 1 m next :=
  .head h (.refl next)

/-- Runs follow each other. -/
theorem Runs.trans {n k : Nat} {m mid last : Machine} (first : Runs n m mid)
    (second : Runs k mid last) : Runs (n + k) m last := by
  induction first with
  | refl => rwa [Nat.zero_add]
  | head hstep _ ih =>
    rw [Nat.add_right_comm]
    exact .head hstep (ih second)

/-- With one in X the system call prints Y as a number. -/
theorem callSystem_one {m : Machine} (h : m.x = 1) : m.callSystem =
    (.running, { m with output := m.output ++ toString m.y.toNat }) := by
  rw [callSystem, if_pos h]

/-- With two in X the system call prints the text at Y. -/
theorem callSystem_two {m : Machine} (h : m.x = 2) : m.callSystem =
    (.running, { m with output := m.output ++ latinText (m.memory.textAt m.y) }) := by
  have hne : m.x ≠ 1 := by
    rw [h]
    decide
  rw [callSystem, if_neg hne, if_pos h]

/-- A step that is not a fault counts itself. -/
theorem steps_step {m next : Machine} {status : Status} (h : m.step = (status, next))
    (ok : ∀ e, status ≠ .fault e) : next.steps = m.steps + 1 := by
  unfold step at h
  split at h
  · next e _ => exact absurd (congrArg Prod.fst h).symm (ok e)
  · next i _ =>
    have hn : next = (execute { m with
      steps := m.steps + 1, pc := m.pc + UInt8.ofNat i.width } i).2 := by rw [h]
    rw [hn]
    cases i with
    | bne distance =>
      simp only [execute]
      split <;> rfl
    | sys =>
      simp only [execute, callSystem]
      split
      · rfl
      · split <;> rfl
    | _ => rfl

/-- A run counts its steps. -/
theorem Runs.steps_eq {n : Nat} {m last : Machine} (h : Runs n m last) :
    last.steps = m.steps + n := by
  induction h with
  | refl => rfl
  | head hstep _ ih =>
    rw [ih, steps_step hstep (by simp)]
    omega

/-- A bounded run that ends within a run reports its limit. -/
theorem runFor_of_le {n : Nat} {m last : Machine} (h : Runs n m last) (limit k : Nat)
    (hk : k ≤ n) : runFor limit k m = .error (.stepLimit limit) := by
  induction h generalizing k with
  | refl =>
    rw [Nat.le_zero.mp hk]
    rfl
  | head hstep _ ih =>
    cases k with
    | zero => rfl
    | succ k =>
      rw [runFor, hstep]
      exact ih k (Nat.le_of_succ_le_succ hk)

/-- A bounded run that passes a run goes on from its end. -/
theorem runFor_add {n : Nat} {m last : Machine} (h : Runs n m last) (limit k : Nat) :
    runFor limit (n + k) m = runFor limit k last := by
  induction h with
  | refl => rw [Nat.zero_add]
  | head hstep _ ih =>
    rw [Nat.add_right_comm, runFor, hstep]
    exact ih

/-- A page whose run reaches a halt is run in full under every limit that allows it, and reports
the limit under every other. -/
theorem run_of_halts {page : Page} {n : Nat} {m last : Machine}
    (h : Runs n (start page) m) (halts : m.step = (.halted, last)) (limit : Nat) :
    (n + 1 ≤ limit → run page limit = .ok { output := last.output, steps := n + 1 }) ∧
      (limit < n + 1 → run page limit = .error (.stepLimit limit)) := by
  have hsteps : last.steps = n + 1 := by
    rw [steps_step halts (by simp), h.steps_eq]
    simp [start]
  constructor
  · intro hle
    have hsum : n + (limit - n - 1 + 1) = limit := by omega
    unfold run
    conv => lhs; arg 2; rw [← hsum]
    rw [runFor_add h, runFor, halts]
    simp only [hsteps]
  · intro hlt
    exact runFor_of_le h limit limit (by omega)

end Machine

end OnePage
