import OnePage.Image

/-!
# The regions of an image

An image is three lists side by side: the code cells written, free cells that are all zero, and the
cells of the texts. Writing appends to the first list, allocating puts a text in front of the last,
and both take from the cells between.
-/

namespace OnePage

namespace Image

/-- The image consists of code cells, zeros up to the texts, and the cells of the texts. -/
structure Regions (image : Image) (code heap : List Cell) : Prop where
  cells : image.cells.toList =
    code ++ (List.replicate (image.heapStart - image.position) (.const 0) ++ heap)
  position : image.position = code.length
  ordered : image.position ≤ image.heapStart
  top : image.heapStart + heap.length = 256

/-- The blank image has neither code nor texts. -/
theorem regions_blank : blank.Regions [] [] where
  cells := by rw [List.nil_append, List.append_nil]; exact Vector.toList_replicate
  position := rfl
  ordered := by simp [blank]
  top := rfl

/-- Setting the first cell behind a list replaces that cell. -/
private theorem set_append_cons (xs ys : List Cell) (a c : Cell) :
    (xs ++ a :: ys).set xs.length c = xs ++ c :: ys := by
  rw [List.set_append_right _ _ (Nat.le_refl _), Nat.sub_self, List.set_cons_zero]

/-- A code cell written goes behind the others. -/
theorem Regions.write {image next : Image} {code heap : List Cell} {cell : Cell}
    (h : image.Regions code heap) (hw : image.write? cell = some next) :
    next.Regions (code ++ [cell]) heap := by
  unfold write? at hw
  split at hw
  · next hlt =>
    obtain rfl := Option.some.inj hw
    obtain ⟨free, hfree⟩ : ∃ free, image.heapStart - image.position = free + 1 :=
      ⟨image.heapStart - image.position - 1, by omega⟩
    have hcells := h.cells
    rw [hfree, List.replicate_succ, List.cons_append] at hcells
    refine ⟨?_, ?_, hlt, h.top⟩
    · rw [Vector.toList_setIfInBounds, hcells, h.position, set_append_cons, ← h.position,
        show image.heapStart - (image.position + 1) = free by omega]
      simp
    · simp [h.position]
  · exact absurd hw (by simp)

/-- Code cells written go behind the others in order. -/
theorem Regions.writeAll {image next : Image} {code heap cells : List Cell}
    (h : image.Regions code heap) (hw : image.writeAll? cells = some next) :
    next.Regions (code ++ cells) heap := by
  induction cells generalizing image code with
  | nil =>
    obtain rfl := Option.some.inj hw
    simpa using h
  | cons c cs ih =>
    rw [writeAll?, Option.bind_eq_bind, Option.bind_eq_some_iff] at hw
    obtain ⟨mid, hc, hcs⟩ := hw
    simpa using ih (h.write hc) hcs

/-- Cells laid over others replace as many of them. -/
theorem toList_overlay (cells : Vector Cell 256) (address : Nat) (front old back new : List Cell)
    (hf : front.length = address) (hl : old.length = new.length)
    (hc : cells.toList = front ++ (old ++ back)) :
    (overlay cells address new).toList = front ++ (new ++ back) := by
  induction new generalizing cells address front old with
  | nil =>
    rw [List.length_eq_zero_iff.mp hl] at hc
    exact hc
  | cons c new ih =>
    cases old with
    | nil => simp at hl
    | cons o old =>
      have hset : (cells.setIfInBounds address c).toList = (front ++ [c]) ++ (old ++ back) := by
        rw [Vector.toList_setIfInBounds, hc, ← hf, List.cons_append, set_append_cons]
        simp
      rw [overlay, ih _ _ (front ++ [c]) old (by simp [hf]) (by simpa using hl) hset]
      simp

/-- A text takes a cell for each byte and one for the zero after it. -/
theorem length_textCells (text : String) : (textCells text).length = text.utf8ByteSize + 1 := by
  simp only [textCells, List.length_map, List.length_append, List.length_singleton]
  rfl

/-- A text takes at least the cell of its final zero. -/
theorem length_textCells_pos (text : String) : 0 < (textCells text).length := by
  rw [length_textCells]
  exact Nat.succ_pos _

/-- A text allocated goes in front of the others, and its address is where it starts. -/
theorem Regions.allocate {image next : Image} {code heap : List Cell} {text : String}
    {address : UInt8} (h : image.Regions code heap)
    (ha : image.allocate? text = some (address, next)) :
    next.Regions code (textCells text ++ heap) ∧ address.toNat = next.heapStart := by
  unfold allocate? at ha
  dsimp only at ha
  split at ha
  · next hfit =>
    obtain ⟨hroom, hbelow⟩ := hfit
    obtain ⟨rfl, rfl⟩ := Prod.mk.inj (Option.some.inj ha)
    have hordered := h.ordered
    have htop := h.top
    have hpos := length_textCells_pos text
    refine ⟨⟨?_, h.position, ?_, ?_⟩, ?_⟩
    · -- The free zeros split into those that stay and those under the text.
      have hsplit : image.heapStart - image.position =
          (image.heapStart - (textCells text).length - image.position) +
            (textCells text).length := by omega
      have hcells := h.cells
      rw [hsplit, ← List.replicate_append_replicate, List.append_assoc, ← List.append_assoc]
        at hcells
      have hlen : (code ++ List.replicate
          (image.heapStart - (textCells text).length - image.position)
          (Cell.const 0)).length = image.heapStart - (textCells text).length := by
        rw [List.length_append, List.length_replicate, ← h.position]
        omega
      rw [toList_overlay _ _ _ _ _ _ hlen (by simp) hcells]
      simp
    · change image.position ≤ image.heapStart - (textCells text).length
      omega
    · rw [List.length_append]
      change image.heapStart - (textCells text).length + _ = 256
      omega
    · change (UInt8.ofNat (image.heapStart - (textCells text).length)).toNat =
        image.heapStart - (textCells text).length
      rw [UInt8.toNat_ofNat']
      exact Nat.mod_eq_of_lt (by omega)
  · exact absurd ha (by simp)

end Image

end OnePage
