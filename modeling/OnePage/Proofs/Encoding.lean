import OnePage.Machine

/-!
# Instructions as bytes

What encoding writes, decoding reads back, from a page, from a listing and at the program counter.
A page holds some bytes at an address when they stand there in order; addresses wrap like those of
the machine.
-/

namespace OnePage

namespace Instruction

variable {V A : Type}

/-- The number of bytes of a sequence of instructions. -/
def size : List (Instruction V A) → Nat
  | [] => 0
  | i :: code => i.width + size code

/-- The bytes of a sequence of instructions. -/
def encodeAll (code : List (Instruction UInt8 UInt8)) : List UInt8 := code.flatMap encode

/-- The instructions of a sequence, each with its offset when the first is at `start`. -/
def offsets (start : Nat) :
    List (Instruction UInt8 UInt8) → List (Nat × Instruction UInt8 UInt8)
  | [] => []
  | i :: code => (start, i) :: offsets (start + i.width) code

/-- No code has no bytes. -/
@[simp] theorem size_nil : size ([] : List (Instruction V A)) = 0 := rfl

/-- Code takes the bytes of its first instruction and those of the others. -/
@[simp] theorem size_cons (i : Instruction V A) (code : List (Instruction V A)) :
    size (i :: code) = i.width + size code := rfl

/-- Code after other code takes the bytes of both. -/
@[simp] theorem size_append (xs ys : List (Instruction V A)) :
    size (xs ++ ys) = size xs + size ys := by
  induction xs with
  | nil => simp
  | cons i xs ih => simp [ih, Nat.add_assoc]

/-- An instruction has as many bytes as its width says. -/
theorem length_encode (i : Instruction UInt8 UInt8) : i.encode.length = i.width :=
  length_cells _ _ _ i

/-- A sequence has as many bytes as its instructions together. -/
theorem length_encodeAll (code : List (Instruction UInt8 UInt8)) :
    (encodeAll code).length = size code := by
  induction code with
  | nil => rfl
  | cons i code ih =>
    rw [size_cons, ← ih, ← length_encode]
    simp [encodeAll]

/-- Replacing operands keeps the width. -/
theorem width_mapOperands {W B : Type} (value : V → W) (address : A → B)
    (i : Instruction V A) : (i.mapOperands value address).width = i.width := by
  cases i <;> rfl

/-- Replacing operands keeps the size of a sequence. -/
theorem size_map_mapOperands {W B : Type} (value : V → W) (address : A → B)
    (code : List (Instruction V A)) :
    size (code.map (mapOperands value address)) = size code := by
  induction code with
  | nil => rfl
  | cons i code ih => simp [ih, width_mapOperands]

/-- The instruction of each offset belongs to the sequence. -/
theorem mem_offsets_append (start : Nat) (front : List (Instruction UInt8 UInt8))
    (i : Instruction UInt8 UInt8) (back : List (Instruction UInt8 UInt8)) :
    (start + size front, i) ∈ offsets start (front ++ i :: back) := by
  induction front generalizing start with
  | nil => simp [offsets]
  | cons j front ih =>
    have h := ih (start + j.width)
    rw [Nat.add_assoc] at h
    simp [offsets, h]

/-- Decoding reads back the instruction whose bytes are there. -/
theorem decodeAt_encode (read : Nat → Except MachineError UInt8) (offset : Nat)
    (i : Instruction UInt8 UInt8)
    (h : ∀ k b, i.encode[k]? = some b → read (offset + k) = .ok b) :
    decodeAt read offset = .ok i := by
  have h0 : read offset = .ok i.opcode := h 0 i.opcode rfl
  unfold decodeAt
  rw [h0]
  cases i with
  | nop | brk | sys => rfl
  | lda v | ldx v | ldy v | bne v =>
    have h1 : read (offset + 1) = .ok v := h 1 v rfl
    simp [bind, Except.bind, shapes, opcode, List.lookup_cons, h1, pure, Except.pure]
  | ldaAt a | sta a | adc a | ldxAt a | ldyAt a | cpx a | inc a =>
    have h1 : read (offset + 1) = .ok a := h 1 a rfl
    have h2 : read (offset + 2) = .ok 0 := h 2 0 rfl
    simp [bind, Except.bind, shapes, opcode, List.lookup_cons, h1, h2, pure, Except.pure]

end Instruction

/-! ### Bytes on a page -/

namespace Page

/-- The bytes stand on the page from an address on. -/
def Holds (page : Page) (address : Nat) (bytes : List UInt8) : Prop :=
  ∀ k b, bytes[k]? = some b → page.read (UInt8.ofNat (address + k)) = b

/-- Two pieces stand one after the other if both stand where they should. -/
theorem holds_append {page : Page} {address : Nat} {xs ys : List UInt8} :
    page.Holds address (xs ++ ys) ↔
      page.Holds address xs ∧ page.Holds (address + xs.length) ys := by
  constructor
  · intro h
    constructor
    · intro k b hk
      have hlt : k < xs.length := (List.getElem?_eq_some_iff.mp hk).1
      exact h k b (by rw [List.getElem?_append_left hlt]; exact hk)
    · intro k b hk
      have hb := h (xs.length + k) b (by
        rw [List.getElem?_append_right (Nat.le_add_right _ _), Nat.add_sub_cancel_left]
        exact hk)
      rwa [← Nat.add_assoc] at hb
  · rintro ⟨hx, hy⟩ k b hk
    by_cases hlt : k < xs.length
    · rw [List.getElem?_append_left hlt] at hk
      exact hx k b hk
    · rw [List.getElem?_append_right (by omega)] at hk
      have hb := hy (k - xs.length) b hk
      rwa [Nat.add_assoc, show xs.length + (k - xs.length) = k by omega] at hb

/-- Reading at a number below 256 reads the byte with that index. -/
theorem read_ofNat (page : Page) (n : Nat) (h : n < 256) :
    page.read (UInt8.ofNat n) = page[n] := by
  simp [read, Nat.mod_eq_of_lt h]

/-- A page holds its own bytes from address zero. -/
theorem holds_toList (page : Page) : page.Holds 0 page.toList := by
  intro k b hk
  obtain ⟨hlt, rfl⟩ := List.getElem?_eq_some_iff.mp hk
  rw [Vector.length_toList] at hlt
  rw [Nat.zero_add, read_ofNat page k hlt, Vector.getElem_toList]

/-- A page that agrees with another where some bytes stand holds them too. -/
theorem Holds.congr {page other : Page} {address : Nat} {bytes : List UInt8}
    (h : page.Holds address bytes)
    (agree : ∀ k < bytes.length,
      other.read (UInt8.ofNat (address + k)) = page.read (UInt8.ofNat (address + k))) :
    other.Holds address bytes := by
  intro k b hk
  rw [agree k (List.getElem?_eq_some_iff.mp hk).1]
  exact h k b hk

/-- Each instruction of code that stands on a page stands where those before it end. -/
theorem Holds.instruction {page : Page} {address : Nat}
    {front back : List (Instruction UInt8 UInt8)} {i : Instruction UInt8 UInt8}
    (h : page.Holds address (Instruction.encodeAll (front ++ i :: back))) :
    page.Holds (address + Instruction.size front) i.encode := by
  rw [Instruction.encodeAll, List.flatMap_append, List.flatMap_cons] at h
  rw [← Instruction.length_encodeAll]
  exact (holds_append.mp (holds_append.mp h).2).1

end Page

/-- The machine fetches the instruction whose bytes are at its program counter. -/
theorem Machine.fetch_of_holds {m : Machine} {i : Instruction UInt8 UInt8}
    (h : m.memory.Holds m.pc.toNat i.encode) : m.fetch = .ok i := by
  apply Instruction.decodeAt_encode
  intro k b hk
  rw [h k b hk]

/-! ### Listings -/

namespace Listing

/-- A listing reads the bytes of a page at wrapped offsets. -/
theorem byteAt_page (page : Page) (offset : Nat) :
    byteAt page.toArray offset = .ok (page.read (UInt8.ofNat offset)) := by
  have hlt : offset % 256 < 256 := Nat.mod_lt _ (by decide)
  have hr : page.read (UInt8.ofNat offset) = page[offset % 256] := by
    simp [Page.read]
  unfold byteAt
  rw [hr, Array.getElem?_eq_getElem (by rw [Vector.size_toArray]; exact hlt)]
  rfl

/-- The listing of code that ends with its only halt is that code with its offsets. -/
theorem ofBytesFrom_holds (page : Page) (code : List (Instruction UInt8 UInt8)) (offset : Nat)
    (noHalt : .brk ∉ code)
    (fits : offset + Instruction.size code < 256)
    (held : page.Holds offset (Instruction.encodeAll (code ++ [.brk]))) :
    ofBytesFrom page.toArray offset = .ok (Instruction.offsets offset (code ++ [.brk])) := by
  induction code generalizing offset with
  | nil =>
    have hi : instructionAt page.toArray offset = .ok .brk := by
      apply Instruction.decodeAt_encode
      intro k b hk
      rw [byteAt_page, held k b hk]
    have hlt : offset < page.toArray.size := by
      rw [Vector.size_toArray]
      simpa using fits
    rw [ofBytesFrom, if_pos hlt, hi]
    rfl
  | cons i code ih =>
    rw [Instruction.size_cons] at fits
    have hsplit : page.Holds offset i.encode ∧
        page.Holds (offset + i.width) (Instruction.encodeAll (code ++ [.brk])) := by
      rw [← Instruction.length_encode i, ← Page.holds_append]
      exact held
    have hi : instructionAt page.toArray offset = .ok i := by
      apply Instruction.decodeAt_encode
      intro k b hk
      rw [byteAt_page, hsplit.1 k b hk]
    have hne : i ≠ .brk := by
      rintro rfl
      exact noHalt (by simp)
    have hlt : offset < page.toArray.size := by
      rw [Vector.size_toArray]
      omega
    have hrest := ih (offset + i.width) (by simp_all) (by omega) hsplit.2
    rw [ofBytesFrom, if_pos hlt, hi]
    simp only [if_neg hne, hrest]
    rfl

end Listing

end OnePage
