import OnePage.Proofs.Encoding

/-!
# The flow of control in code

A piece of code is closed if its branches stay on it: each goes to the start of one of its
instructions or to its end. No branch goes right to a system call, and each system call follows a
load of X with a number the machine knows, so a call is never reached with another X. Closed pieces
put one after the other are closed.
-/

namespace OnePage.Flow

open Instruction

/-- An address where code that starts at `start` may be entered: that of one of its instructions
other than a system call, or that of its end. -/
def Entry (start : Nat) : List (Instruction UInt8 UInt8) → UInt8 → Prop
  | [], p => p = UInt8.ofNat start
  | i :: code, p => (p = UInt8.ofNat start ∧ i ≠ .sys) ∨ Entry (start + i.width) code p

/-- Every branch of code that starts at `start` goes to one of the targets. -/
def Branches (targets : UInt8 → Prop) (start : Nat) : List (Instruction UInt8 UInt8) → Prop
  | [] => True
  | i :: code =>
    (∀ distance, i = .bne distance → targets (UInt8.ofNat (start + i.width) + distance)) ∧
      Branches targets (start + i.width) code

/-- Every system call follows a load of X with the number of one. -/
def Calls : Option (Instruction UInt8 UInt8) → List (Instruction UInt8 UInt8) → Prop
  | _, [] => True
  | before, i :: code =>
    (i = .sys → before = some (.ldx 1) ∨ before = some (.ldx 2)) ∧ Calls (some i) code

/-- Code that starts at `start`, is left only at its end and does not halt. -/
structure Closed (start : Nat) (code : List (Instruction UInt8 UInt8)) : Prop where
  branches : Branches (Entry start code) start code
  calls : Calls none code
  runsOn : .brk ∉ code

/-- Code that does not start with a system call may be entered at its start. -/
theorem entry_start {start : Nat} {code : List (Instruction UInt8 UInt8)} (h : Calls none code) :
    Entry start code (UInt8.ofNat start) := by
  cases code with
  | nil => rfl
  | cons i code =>
    refine .inl ⟨rfl, fun hi ↦ ?_⟩
    rcases h.1 hi with h | h <;> cases h

/-- Code may be entered at its end. -/
theorem entry_end (start : Nat) (code : List (Instruction UInt8 UInt8)) :
    Entry start code (UInt8.ofNat (start + size code)) := by
  induction code generalizing start with
  | nil => rfl
  | cons i code ih =>
    rw [size_cons, ← Nat.add_assoc]
    exact .inr (ih (start + i.width))

/-- Entries of the first piece are entries of the whole. -/
theorem entry_append_left {start : Nat} {xs ys : List (Instruction UInt8 UInt8)} {p : UInt8}
    (h : Entry start xs p) (hy : Calls none ys) : Entry start (xs ++ ys) p := by
  induction xs generalizing start with
  | nil =>
    obtain rfl : p = UInt8.ofNat start := h
    exact entry_start hy
  | cons i xs ih => exact h.imp id ih

/-- Entries of the second piece are entries of the whole. -/
theorem entry_append_right {start : Nat} {xs ys : List (Instruction UInt8 UInt8)} {p : UInt8}
    (h : Entry (start + size xs) ys p) : Entry start (xs ++ ys) p := by
  induction xs generalizing start with
  | nil => exact h
  | cons i xs ih =>
    rw [size_cons, ← Nat.add_assoc] at h
    exact .inr (ih h)

/-- An entry splits the code: it is the address of what comes next. -/
theorem entry_split {start : Nat} {code : List (Instruction UInt8 UInt8)} {p : UInt8}
    (h : Entry start code p) :
    ∃ front back, code = front ++ back ∧ p = UInt8.ofNat (start + size front) ∧
      ∀ i ∈ back.head?, i ≠ .sys := by
  induction code generalizing start with
  | nil => exact ⟨[], [], rfl, h, by simp⟩
  | cons i code ih =>
    rcases h with ⟨hp, hi⟩ | h
    · exact ⟨[], i :: code, rfl, hp, by simpa using hi⟩
    · obtain ⟨front, back, rfl, hp, hback⟩ := ih h
      refine ⟨i :: front, back, rfl, ?_, hback⟩
      rw [hp, size_cons, Nat.add_assoc]

/-- Branches may go to more targets. -/
theorem Branches.mono {targets more : UInt8 → Prop} {start : Nat}
    {code : List (Instruction UInt8 UInt8)} (h : Branches targets start code)
    (sub : ∀ p, targets p → more p) : Branches more start code := by
  induction code generalizing start with
  | nil => trivial
  | cons i code ih => exact ⟨fun distance hi ↦ sub _ (h.1 distance hi), ih h.2⟩

/-- The branches of the whole are those of its pieces. -/
theorem branches_append {targets : UInt8 → Prop} {start : Nat}
    {xs ys : List (Instruction UInt8 UInt8)} :
    Branches targets start (xs ++ ys) ↔
      Branches targets start xs ∧ Branches targets (start + size xs) ys := by
  induction xs generalizing start with
  | nil => simp [Branches]
  | cons i xs ih =>
    rw [List.cons_append, Branches, Branches, ih, size_cons, ← Nat.add_assoc, and_assoc]

/-- What comes before code that needs nothing before it does not matter. -/
theorem Calls.of_none {code : List (Instruction UInt8 UInt8)} (h : Calls none code)
    (before : Option (Instruction UInt8 UInt8)) : Calls before code := by
  cases code with
  | nil => trivial
  | cons i code =>
    refine ⟨fun hi ↦ ?_, h.2⟩
    rcases h.1 hi with h | h <;> cases h

/-- Pieces whose system calls are prepared have them prepared together. -/
theorem Calls.append {before : Option (Instruction UInt8 UInt8)}
    {xs ys : List (Instruction UInt8 UInt8)} (h : Calls before xs) (k : Calls none ys) :
    Calls before (xs ++ ys) := by
  induction xs generalizing before with
  | nil => exact k.of_none before
  | cons i xs ih => exact ⟨h.1, ih h.2⟩

/-- No code at all is closed. -/
theorem closed_nil (start : Nat) : Closed start [] := ⟨trivial, trivial, by simp⟩

/-- Closed pieces one after the other are closed. -/
theorem Closed.append {start : Nat} {xs ys : List (Instruction UInt8 UInt8)}
    (h : Closed start xs) (k : Closed (start + size xs) ys) : Closed start (xs ++ ys) where
  branches := branches_append.mpr
    ⟨h.branches.mono fun _ hp ↦ entry_append_left hp k.calls,
      k.branches.mono fun _ hp ↦ entry_append_right hp⟩
  calls := h.calls.append k.calls
  runsOn := by
    rw [List.mem_append]
    exact fun hmem ↦ hmem.elim h.runsOn k.runsOn

/-- An instruction that neither branches, nor calls the system, nor halts. -/
def isPlain {V A : Type} : Instruction V A → Bool
  | .bne _ | .brk | .sys => false
  | _ => true

/-- A plain instruction is closed. -/
theorem closed_plain {start : Nat} {i : Instruction UInt8 UInt8} (h : isPlain i) :
    Closed start [i] where
  branches := ⟨fun distance hi ↦ by simp [hi, isPlain] at h, trivial⟩
  calls := ⟨fun hi ↦ by simp [hi, isPlain] at h, trivial⟩
  runsOn := by
    rw [List.mem_singleton]
    rintro rfl
    simp [isPlain] at h

/-- A system call right after the load of its number is closed. -/
theorem closed_call {start : Nat} {number : UInt8} (h : number = 1 ∨ number = 2) :
    Closed start [.ldx number, .sys] where
  branches := by simp [Branches]
  calls := by rcases h with rfl | rfl <;> simp [Calls]
  runsOn := by simp

/-- A branch over a closed piece to its end is closed with it. -/
theorem Closed.branchOver {start : Nat} {code : List (Instruction UInt8 UInt8)}
    {distance : UInt8} (h : Closed (start + 2) code)
    (target : UInt8.ofNat (start + 2) + distance = UInt8.ofNat (start + 2 + size code)) :
    Closed start (.bne distance :: code) where
  branches := by
    refine ⟨?_, h.branches.mono fun p hp ↦ .inr hp⟩
    rintro _ ⟨rfl⟩
    exact .inr (target ▸ entry_end (start + 2) code)
  calls := ⟨by simp, h.calls.of_none _⟩
  runsOn := by simpa using h.runsOn

/-- A test, a branch past the loop, and a body that ends with a branch back to the test are
closed together. -/
theorem Closed.loop {start : Nat} {test body : List (Instruction UInt8 UInt8)}
    {forward back : UInt8} (ht : Closed start test) (hb : Closed (start + size test + 2) body)
    (leave : UInt8.ofNat (start + size test + 2) + forward =
      UInt8.ofNat (start + size test + 2 + size body + 2))
    (again : UInt8.ofNat (start + size test + 2 + size body + 2) + back = UInt8.ofNat start) :
    Closed start (test ++ .bne forward :: (body ++ [.bne back])) := by
  have hend : Calls none [.bne back] := by simp [Calls]
  have hrest : Calls none (.bne forward :: (body ++ [.bne back])) :=
    ⟨by simp, (hb.calls.append hend).of_none _⟩
  have hcalls : Calls none (test ++ .bne forward :: (body ++ [.bne back])) :=
    ht.calls.append hrest
  -- The branches of the test, the one past the loop, those of the body and the one back.
  refine ⟨branches_append.mpr ⟨?_, ?_, branches_append.mpr ⟨?_, ?_, trivial⟩⟩, hcalls, ?_⟩
  · exact ht.branches.mono fun p hp ↦ entry_append_left hp hrest
  · rintro _ ⟨rfl⟩
    have hsize : start + size (test ++ .bne forward :: (body ++ [.bne back])) =
        start + size test + 2 + size body + 2 := by
      rw [size_append, size_cons, size_append, size_cons, size_nil]
      change start + (size test + (2 + (size body + (2 + 0)))) = _
      omega
    change Entry _ _ (UInt8.ofNat (start + size test + 2) + forward)
    rw [leave, ← hsize]
    exact entry_end start _
  · exact hb.branches.mono fun p hp ↦ entry_append_right (.inr (entry_append_left hp hend))
  · rintro _ ⟨rfl⟩
    change Entry _ _ (UInt8.ofNat (start + size test + 2 + size body + 2) + back)
    rw [again]
    exact entry_start hcalls
  · simp [ht.runsOn, hb.runsOn]

end OnePage.Flow
