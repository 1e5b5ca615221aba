import OnePage.Program
import OnePage.Proofs.Regions

/-!
# Images as they are stored

An image is stored with the index of the next code cell and the index of the last free cell, the one
that gets the zero behind the next text. Its operations change cells one by one and may fail on the
way, and then what they have changed stays changed. They do what the operations on images do: the
same ones fail, and they fail before anything is changed.
-/

namespace OnePage

/-- An image as it is stored. -/
structure StoredImage where
  cells : Vector Cell 256
  /-- The index of the next code cell. -/
  index : Nat
  /-- The index of the last free cell. -/
  heapIndex : Nat

/-- The stored image with nothing on it. -/
def StoredImage.blank : StoredImage :=
  { cells := Vector.replicate 256 (.const 0), index := 0, heapIndex := 255 }

/-- An operation on a stored image. What it changes before it fails stays changed. -/
abbrev Storing := EStateM CodeError StoredImage

namespace Storing

/-- Store a cell. -/
def put (address : Nat) (cell : Cell) : Storing Unit :=
  modify fun s ↦ { s with cells := s.cells.setIfInBounds address cell }

/-- Store bytes one after the other, from an address on. -/
def putAll (address : Nat) : List UInt8 → Storing Unit
  | [] => pure ()
  | byte :: bytes => do
    put address (.const byte)
    putAll (address + 1) bytes

/-- Add a code cell. -/
def write (cell : Cell) : Storing Unit := do
  let s ← get
  if s.index > s.heapIndex then
    throw .outOfMemory
  put s.index cell
  modify fun s ↦ { s with index := s.index + 1 }

/-- The difference of two numbers, if it is not negative. -/
def minus? (m n : Nat) : Option Nat := if n ≤ m then some (m - n) else none

/-- Put a text right below the others and return where it starts. -/
def allocate (text : String) : Storing UInt8 := do
  let bytes := text.toUTF8.data.toList
  let s ← get
  match (minus? s.heapIndex bytes.length).filter fun start ↦ s.index ≤ start && 0 < start with
  | none => throw .outOfMemory
  | some start =>
    putAll start bytes
    put s.heapIndex (.const 0)
    modify fun s ↦ { s with heapIndex := start - 1 }
    return UInt8.ofNat start

/-! ### What the operations do -/

private theorem run_putAll (address : Nat) (bytes : List UInt8) (s : StoredImage) :
    (putAll address bytes).run s =
      .ok () { s with cells := Image.overlay s.cells address (bytes.map .const) } := by
  induction bytes generalizing address s with
  | nil => rfl
  | cons byte bytes ih => exact ih (address + 1) _

/-- A code cell is added if its index is not past the last free cell; else nothing is changed. -/
theorem run_write (cell : Cell) (s : StoredImage) :
    (write cell).run s =
      if s.index ≤ s.heapIndex then
        .ok () { s with cells := s.cells.setIfInBounds s.index cell, index := s.index + 1 }
      else .error .outOfMemory s := by
  by_cases h : s.index ≤ s.heapIndex
  · simp [write, put, h, Nat.not_lt.mpr h]
  · simp [write, put, h, Nat.lt_of_not_le h]

private theorem filter_minus? (m n index : Nat) :
    ((minus? m n).filter fun start ↦ index ≤ start && 0 < start) =
      if index + n ≤ m ∧ n < m then some (m - n) else none := by
  by_cases hle : n ≤ m
  · rw [minus?, if_pos hle, Option.filter_some]
    congr 1
    simp only [Bool.and_eq_true, decide_eq_true_eq, eq_iff_iff]
    omega
  · rw [minus?, if_neg hle, Option.filter_none, if_neg (by omega)]

private theorem overlay_append (cells : Vector Cell 256) (address : Nat) (front back : List Cell) :
    Image.overlay cells address (front ++ back) =
      Image.overlay (Image.overlay cells address front) (address + front.length) back := by
  induction front generalizing cells address with
  | nil => rfl
  | cons c front ih =>
    rw [List.cons_append, Image.overlay, ih, Image.overlay, List.length_cons,
      Nat.add_assoc address 1, Nat.add_comm 1]

private theorem set_overlay (cells : Vector Cell 256) (text : String) {last : Nat}
    (h : text.utf8ByteSize ≤ last) :
    (Image.overlay cells (last - text.utf8ByteSize)
        (text.toUTF8.data.toList.map .const)).setIfInBounds last (.const 0) =
      Image.overlay cells (last - text.utf8ByteSize) (Image.textCells text) := by
  have hlength : text.toUTF8.data.toList.length = text.utf8ByteSize := rfl
  rw [Image.textCells, List.map_append, overlay_append, List.length_map, hlength,
    Nat.sub_add_cancel h]
  rfl

/-- A text with its zero is put on the cells up to the last free one if it starts neither in the
code nor at address zero, and else nothing is changed. -/
theorem run_allocate (text : String) (s : StoredImage) :
    (allocate text).run s =
      if s.index + text.utf8ByteSize ≤ s.heapIndex ∧ text.utf8ByteSize < s.heapIndex then
        .ok (UInt8.ofNat (s.heapIndex - text.utf8ByteSize))
          { s with
            cells := Image.overlay s.cells (s.heapIndex - text.utf8ByteSize) (Image.textCells text)
            heapIndex := s.heapIndex - text.utf8ByteSize - 1 }
      else .error .outOfMemory s := by
  have hlength : text.toUTF8.data.toList.length = text.utf8ByteSize := rfl
  simp only [allocate, EStateM.run_bind, EStateM.run_get, hlength, filter_minus?]
  by_cases h : s.index + text.utf8ByteSize ≤ s.heapIndex ∧ text.utf8ByteSize < s.heapIndex
  · simp only [if_pos h, EStateM.run_bind, run_putAll]
    rw [← set_overlay s.cells text (Nat.le_of_lt h.2)]
    rfl
  · simp only [if_neg h]
    rfl

end Storing

/-! ### Images and how they are stored -/

/-- The image is stored so: the last free cell is right below the texts. -/
structure Image.StoredAs (image : Image) (s : StoredImage) : Prop where
  cells : s.cells = image.cells
  index : s.index = image.position
  heapIndex : s.heapIndex + 1 = image.heapStart

namespace Image

/-- The blank image is stored as the blank one. -/
theorem storedAs_blank : blank.StoredAs .blank := ⟨rfl, rfl, rfl⟩

variable {image : Image} {s : StoredImage}

/-- A code cell is added to the image and to what is stored, or to neither. -/
theorem StoredAs.write (h : image.StoredAs s) (cell : Cell) :
    (image.write? cell = none ∧ (Storing.write cell).run s = .error .outOfMemory s) ∨
      ∃ next s', image.write? cell = some next ∧ (Storing.write cell).run s = .ok () s' ∧
        next.StoredAs s' := by
  obtain ⟨hcells, hindex, hheap⟩ := h
  rw [Storing.run_write, write?]
  by_cases hroom : s.index ≤ s.heapIndex
  · rw [if_pos (by omega), if_pos hroom]
    exact .inr ⟨_, _, rfl, rfl, by simp [hcells, hindex], by simp [hindex], hheap⟩
  · rw [if_neg (by omega), if_neg hroom]
    exact .inl ⟨rfl, rfl⟩

/-- A text is put on the image and on what is stored, at one address, or on neither. -/
theorem StoredAs.allocate (h : image.StoredAs s) (text : String) :
    (image.allocate? text = none ∧ (Storing.allocate text).run s = .error .outOfMemory s) ∨
      ∃ address next s', image.allocate? text = some (address, next) ∧
        (Storing.allocate text).run s = .ok address s' ∧ next.StoredAs s' := by
  obtain ⟨hcells, hindex, hheap⟩ := h
  have hstart : image.heapStart - (text.utf8ByteSize + 1) = s.heapIndex - text.utf8ByteSize := by
    omega
  simp only [Storing.run_allocate, allocate?, length_textCells, hstart]
  by_cases hroom : s.index + text.utf8ByteSize ≤ s.heapIndex ∧ text.utf8ByteSize < s.heapIndex
  · rw [if_pos (by omega), if_pos hroom]
    refine .inr ⟨_, _, _, rfl, rfl, by simp [hcells], hindex, ?_⟩
    dsimp only
    omega
  · rw [if_neg (by omega), if_neg hroom]
    exact .inl ⟨rfl, rfl⟩

/-- Adding a code cell fails on what is stored exactly if it does on the image. -/
theorem StoredAs.write_fails_iff (h : image.StoredAs s) (cell : Cell) :
    (Storing.write cell).run s = .error .outOfMemory s ↔ image.write? cell = none := by
  rcases h.write cell with ⟨hnone, hrun⟩ | ⟨next, s', hsome, hrun, _⟩
  · simp [hnone, hrun]
  · simp [hsome, hrun]

/-- Putting a text fails on what is stored exactly if it does on the image. -/
theorem StoredAs.allocate_fails_iff (h : image.StoredAs s) (text : String) :
    (Storing.allocate text).run s = .error .outOfMemory s ↔ image.allocate? text = none := by
  rcases h.allocate text with ⟨hnone, hrun⟩ | ⟨address, next, s', hsome, hrun, _⟩
  · simp [hnone, hrun]
  · simp [hsome, hrun]

end Image

end OnePage
